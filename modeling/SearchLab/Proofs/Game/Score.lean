import Mathlib.Data.Prod.Lex
import Mathlib.Data.Set.Defs
import SearchLab.Game.Evaluation
import SearchLab.Proofs.Double

/-!
# Outcomes that can be compared

Doubles are not ordered: one that is no number is neither lower nor higher than any other, and the two zeros are the
same. `RankedBy` says that some outcomes are compared as their ranks are, whatever is the case for the others. Doubles
that are numbers have ranks.

* `IsBest` — an outcome that is there and that a player would give for no other;
* `IsBest.better`, `IsBest.keep` — the best outcome when one more is looked at;
* `rankedBy_double` — the ranks of doubles.
-/

namespace SearchLab.Double

open Float.Model Float.Model.UnpackedFloat

/-- A number behind a sign. -/
def signed : Sign → ℤ → ℤ
  | .negative, k => -k
  | .positive, k => k

/-- The rank of an unpacked double: its kind first, then its exponent, and its digits last. -/
def unpackedRank : UnpackedFloat → ℤ ×ₗ ℤ ×ₗ ℤ
  | .infinity s => toLex (signed s 2, toLex (0, 0))
  | .finite s m e _ => toLex (signed s 1, toLex (signed s e, signed s m))
  | .zero _ | .notANumber => toLex (0, toLex (0, 0))

/-- Unpacked doubles that are numbers are compared as their ranks are. -/
theorem compare_iff_rank {x y : UnpackedFloat} (hx : x ≠ .notANumber) (hy : y ≠ .notANumber) :
    (x.compare y = some .lt ↔ unpackedRank x < unpackedRank y) ∧
      (x.compare y = some .eq ↔ unpackedRank x = unpackedRank y) := by
  have hlt : ∀ {m n : Nat} {d e : Int}, (compare d e).then (compare m n) = .lt ↔ d < e ∨ d = e ∧ m < n := by
    intro m n d e
    simp [Ordering.then_eq_lt, compare_lt_iff_lt]
  have heq : ∀ {m n : Nat} {d e : Int}, (compare d e).then (compare m n) = .eq ↔ d = e ∧ m = n := by
    intro m n d e
    simp [Ordering.then_eq_eq]
  have hgt : ∀ {m n : Nat} {d e : Int}, (compare d e).then (compare m n) = .gt ↔ e < d ∨ d = e ∧ n < m := by
    intro m n d e
    simp [Ordering.then_eq_gt, compare_gt_iff_gt]
  -- One case for any two kinds; where the signs matter, they decide what is compared and in which order.
  cases x with
  | notANumber => exact absurd rfl hx
  | infinity s =>
      cases y with
      | notANumber => exact absurd rfl hy
      | infinity t =>
          dsimp only [UnpackedFloat.compare, unpackedRank]
          cases s <;> cases t <;> constructor <;> simp [signed, Prod.Lex.toLex_lt_toLex] <;> decide
      | zero t =>
          dsimp only [UnpackedFloat.compare, unpackedRank]
          cases s <;> simp [signed, Prod.Lex.toLex_lt_toLex]
      | finite t m e hm =>
          dsimp only [UnpackedFloat.compare, unpackedRank]
          cases s <;> cases t <;> simp [signed, Prod.Lex.toLex_lt_toLex]
  | zero s =>
      cases y with
      | notANumber => exact absurd rfl hy
      | infinity t =>
          dsimp only [UnpackedFloat.compare, unpackedRank]
          cases t <;> simp [signed, Prod.Lex.toLex_lt_toLex]
      | zero t =>
          dsimp only [UnpackedFloat.compare, unpackedRank]
          simp
      | finite t m e hm =>
          dsimp only [UnpackedFloat.compare, unpackedRank]
          cases t <;> simp [signed, Prod.Lex.toLex_lt_toLex]
  | finite s m d hm =>
      cases y with
      | notANumber => exact absurd rfl hy
      | infinity t =>
          dsimp only [UnpackedFloat.compare, unpackedRank]
          cases s <;> cases t <;> simp [signed, Prod.Lex.toLex_lt_toLex]
      | zero t =>
          dsimp only [UnpackedFloat.compare, unpackedRank]
          cases s <;> simp [signed, Prod.Lex.toLex_lt_toLex]
      | finite t n e hn =>
          have hcast : ((m : ℤ) = n) ↔ m = n := Int.ofNat_inj
          dsimp only [UnpackedFloat.compare, unpackedRank]
          cases s <;> cases t <;> simp [signed, Prod.Lex.toLex_lt_toLex, hlt, heq, hgt, hcast]

/-- The rank of a double. -/
def rank (x : Float) : ℤ ×ₗ ℤ ×ₗ ℤ := unpackedRank x.toModel.unpack

end SearchLab.Double

namespace SearchLab.Game

variable {υ α : Type} [Score υ] [LinearOrder α]

/-- Some outcomes are compared as their ranks are. -/
def Score.RankedBy (rank : υ → α) (C : Set υ) : Prop :=
  ∀ {u v}, u ∈ C → v ∈ C →
    (Score.less u v = true ↔ rank u < rank v) ∧ (Score.same u v = true ↔ rank u = rank v)

theorem Score.less_double_iff {u v : Float} :
    Score.less u v = true ↔ u.toModel.unpack.compare v.toModel.unpack = some .lt := by
  have hlt : u < v ↔ u.toModel.unpack.lt v.toModel.unpack = true := decide_eq_true_iff
  exact decide_eq_true_iff.trans (hlt.trans beq_iff_eq)

/-- Doubles that are numbers are compared as their ranks are. -/
theorem Score.rankedBy_double : Score.RankedBy Double.rank {u : Float | u.isNaN = false} := by
  intro u v hu hv
  have hcompare := Double.compare_iff_rank (Double.unpack_ne_notANumber hu) (Double.unpack_ne_notANumber hv)
  have hsame : Score.same u v = true ↔ u.toModel.unpack.compare v.toModel.unpack = some .eq := by
    have heq : Score.same u v = (u.toModel.unpack.compare v.toModel.unpack == some .eq) := rfl
    rw [heq, beq_iff_eq]
  exact ⟨Score.less_double_iff.trans hcompare.1, hsame.trans hcompare.2⟩

/-- To be lower is a strict order, also where some outcomes cannot be compared. -/
structure Score.Strict (υ : Type) [Score υ] : Prop where
  irrefl : ∀ u : υ, Score.less u u = false
  trans : ∀ {u v w : υ}, Score.less u v = true → Score.less v w = true → Score.less u w = true

/-- A double that is no number is neither lower nor higher than any other. -/
theorem Score.numbers_of_less {u v : Float} (h : Score.less u v = true) :
    u.toModel.unpack ≠ .notANumber ∧ v.toModel.unpack ≠ .notANumber := by
  rw [Score.less_double_iff] at h
  constructor <;> intro hnan <;> rw [hnan] at h
  · cases h
  · cases hu : u.toModel.unpack <;> rw [hu] at h <;> cases h

theorem Score.strict_double : Score.Strict Float where
  irrefl u := by
    rw [Bool.eq_false_iff]
    intro h
    obtain ⟨hu, _⟩ := Score.numbers_of_less h
    rw [Score.less_double_iff, (Double.compare_iff_rank hu hu).1] at h
    exact lt_irrefl _ h
  trans {u v w} huv hvw := by
    obtain ⟨hu, hv⟩ := Score.numbers_of_less huv
    obtain ⟨_, hw⟩ := Score.numbers_of_less hvw
    rw [Score.less_double_iff, (Double.compare_iff_rank hu hv).1] at huv
    rw [Score.less_double_iff, (Double.compare_iff_rank hv hw).1] at hvw
    rw [Score.less_double_iff, (Double.compare_iff_rank hu hw).1]
    exact lt_trans huv hvw

/-! ## The best outcome -/

/-- An outcome that is there, and for which a player would take no other. -/
structure IsBest (player : Player) (outcomes : List υ) (u : υ) : Prop where
  mem : u ∈ outcomes
  unbeaten : ∀ v ∈ outcomes, Evaluation.prefers player v u = false

section

variable {rank : υ → α} {C : Set υ}

/-- A player prefers one rank to another. -/
theorem Score.RankedBy.prefers_iff (h : Score.RankedBy rank C) {u v : υ} (hu : u ∈ C) (hv : v ∈ C) (player : Player) :
    Evaluation.prefers player u v = true ↔
      match player with
      | .max => rank v < rank u
      | .min => rank u < rank v := by
  cases player with
  | max => exact (h hv hu).1
  | min => exact (h hu hv).1

theorem Score.RankedBy.same_trans (h : Score.RankedBy rank C) {u v w : υ} (hu : u ∈ C) (hv : v ∈ C) (hw : w ∈ C)
    (huv : Score.same u v = true) (hvw : Score.same v w = true) : Score.same u w = true :=
  (h hu hw).2.mpr (((h hu hv).2.mp huv).trans ((h hv hw).2.mp hvw))

theorem Score.RankedBy.same_refl (h : Score.RankedBy rank C) {u : υ} (hu : u ∈ C) : Score.same u u = true :=
  (h hu hu).2.mpr rfl

namespace IsBest

variable {player : Player} {outcomes : List υ} {u v : υ}

/-- The first outcome is the best so far. -/
theorem single (h : Score.RankedBy rank C) (player : Player) (hu : u ∈ C) : IsBest player [u] u where
  mem := List.mem_singleton_self u
  unbeaten v hv := by
    rw [List.mem_singleton.mp hv, Bool.eq_false_iff, ne_eq, h.prefers_iff hu hu]
    cases player <;> exact lt_irrefl _

/-- What is preferred to the best is the best, and like none of the others. -/
theorem better (h : Score.RankedBy rank C) (hbest : IsBest player outcomes u) (hC : ∀ w ∈ outcomes, w ∈ C) (hv : v ∈ C)
    (hprefers : Evaluation.prefers player v u = true) :
    IsBest player (outcomes ++ [v]) v ∧ ∀ w ∈ outcomes, Score.same v w = false := by
  have hu : u ∈ C := hC u hbest.mem
  have hlower : ∀ w ∈ outcomes, Evaluation.prefers player w v = false ∧ Score.same v w = false := by
    intro w hw
    have hunbeaten := hbest.unbeaten w hw
    rw [Bool.eq_false_iff, ne_eq, h.prefers_iff (hC w hw) hu] at hunbeaten
    rw [h.prefers_iff hv hu] at hprefers
    rw [Bool.eq_false_iff, Bool.eq_false_iff, ne_eq, ne_eq, h.prefers_iff (hC w hw) hv, (h hv (hC w hw)).2]
    cases player with
    | max => exact ⟨not_lt.mpr ((not_lt.mp hunbeaten).trans hprefers.le), (lt_of_le_of_lt (not_lt.mp hunbeaten) hprefers).ne'⟩
    | min => exact ⟨not_lt.mpr (hprefers.le.trans (not_lt.mp hunbeaten)), (lt_of_lt_of_le hprefers (not_lt.mp hunbeaten)).ne⟩
  refine ⟨⟨by simp, ?_⟩, fun w hw => (hlower w hw).2⟩
  intro w hw
  rcases List.mem_append.mp hw with hw | hw
  · exact (hlower w hw).1
  · rw [List.mem_singleton.mp hw]
    exact (single h player hv).unbeaten v (List.mem_singleton_self v)

/-- What is not preferred to the best leaves it the best. -/
theorem keep (hbest : IsBest player outcomes u) (hprefers : Evaluation.prefers player v u = false) :
    IsBest player (outcomes ++ [v]) u where
  mem := List.mem_append_left [v] hbest.mem
  unbeaten w hw := by
    rcases List.mem_append.mp hw with hw | hw
    · exact hbest.unbeaten w hw
    · rw [List.mem_singleton.mp hw]
      exact hprefers

/-- Where each outcome has one of the others that is worth the same, and the other way round, the best are worth the
same. -/
theorem same (h : Score.RankedBy rank C) {others : List υ} (hu : IsBest player outcomes u) (hv : IsBest player others v)
    (hC : ∀ w ∈ outcomes, w ∈ C) (hC' : ∀ w ∈ others, w ∈ C)
    (hthere : ∀ w ∈ outcomes, ∃ w' ∈ others, Score.same w w' = true)
    (hback : ∀ w' ∈ others, ∃ w ∈ outcomes, Score.same w w' = true) : Score.same u v = true := by
  have huC : u ∈ C := hC u hu.mem
  have hvC : v ∈ C := hC' v hv.mem
  obtain ⟨v', hv', huv'⟩ := hthere u hu.mem
  obtain ⟨u', hu', hu'v⟩ := hback v hv.mem
  have hvbest := hv.unbeaten v' hv'
  have hubest := hu.unbeaten u' hu'
  rw [Bool.eq_false_iff, ne_eq, h.prefers_iff (hC' v' hv') hvC] at hvbest
  rw [Bool.eq_false_iff, ne_eq, h.prefers_iff (hC u' hu') huC] at hubest
  rw [(h huC (hC' v' hv')).2] at huv'
  rw [(h (hC u' hu') hvC).2] at hu'v
  refine (h huC hvC).2.mpr ?_
  cases player with
  | max => exact le_antisymm (huv' ▸ not_lt.mp hvbest) (hu'v ▸ not_lt.mp hubest)
  | min => exact le_antisymm (hu'v ▸ not_lt.mp hubest) (huv' ▸ not_lt.mp hvbest)

/-- Where the same moves have outcomes that are worth the same, the best of them are worth the same. -/
theorem same_of_moves (h : Score.RankedBy rank C) {outcomes others : List (Move × υ)}
    (hu : IsBest player (outcomes.map Prod.snd) u) (hv : IsBest player (others.map Prod.snd) v)
    (hmoves : outcomes.map Prod.fst = others.map Prod.fst) (hC : ∀ o ∈ outcomes, o.2 ∈ C) (hC' : ∀ o ∈ others, o.2 ∈ C)
    (hsame : ∀ o ∈ outcomes, ∀ o' ∈ others, o'.1 = o.1 → Score.same o.2 o'.2 = true) : Score.same u v = true := by
  refine hu.same h hv ?_ ?_ ?_ ?_
  · intro w hw
    obtain ⟨o, ho, rfl⟩ := List.mem_map.mp hw
    exact hC o ho
  · intro w hw
    obtain ⟨o, ho, rfl⟩ := List.mem_map.mp hw
    exact hC' o ho
  · intro w hw
    obtain ⟨o, ho, rfl⟩ := List.mem_map.mp hw
    obtain ⟨o', ho', hmove⟩ := List.mem_map.mp (hmoves ▸ List.mem_map_of_mem ho)
    exact ⟨o'.2, List.mem_map_of_mem ho', hsame o ho o' ho' hmove⟩
  · intro w hw
    obtain ⟨o', ho', rfl⟩ := List.mem_map.mp hw
    obtain ⟨o, ho, hmove⟩ := List.mem_map.mp (hmoves.symm ▸ List.mem_map_of_mem ho')
    exact ⟨o.2, List.mem_map_of_mem ho, hsame o ho o' ho' hmove.symm⟩

/-- An outcome that is there has a move. -/
theorem moves_ne_nil {outcomes : List (Move × υ)} (h : IsBest player (outcomes.map Prod.snd) u) :
    outcomes.map Prod.fst ≠ [] := by
  obtain ⟨o, ho, -⟩ := List.mem_map.mp h.mem
  exact List.ne_nil_of_mem (List.mem_map_of_mem ho)

end IsBest

end

end SearchLab.Game
