import SearchLab.Proofs.Double.Counting
import SearchLab.Proofs.Graph.Distances
import SearchLab.Proofs.Graph.Levels

/-!
# Distances without weights

Without weights a search counts steps, and over doubles it counts no further than to `2^53`. The counts up to there are
costs of their own kind, for which doubles stand: they are compared in the same way, and one more is the same. So the two
searches go the same way, and what is known of the one tells what the other finds: a node is as far away as its level is.

* `Count` — numbers of steps as far as doubles count;
* `Mirrors`, `run_map` — a search over costs that stand for others goes the same way;
* `mirrors_toDouble` — doubles stand for counts;
* `distancesFrom_level`, `distancesFrom_ordered` — the distances from a node in doubles.
-/

namespace SearchLab

open Cost (LawfulCost Climbs)
open Relation (ReflTransGen)

/-! ## Counts -/

/-- Numbers of steps up to `2^53`, and one above all others. -/
abbrev Count : Type := WithTop (Fin (2 ^ 53 + 1))

namespace Count

/-- A number of steps, or the last count where there are more. -/
def upTo (n : Nat) : Count := ((⟨min n (2 ^ 53), by omega⟩ : Fin (2 ^ 53 + 1)) : WithTop (Fin (2 ^ 53 + 1)))

/-- Counts as costs; no fraction is a count. -/
instance : Cost Count where
  ofInt n := upTo n.toNat
  ofFloat _ := ⊤
  infinite := ⊤
  add := WithTop.map₂ fun m n => ⟨min (m + n) (2 ^ 53), by omega⟩
  sub := WithTop.map₂ fun m n => ⟨m - n, by omega⟩
  mul := WithTop.map₂ fun m n => ⟨min (m * n) (2 ^ 53), by omega⟩
  min m n := Min.min m n
  less m n := decide (m < n)
  atMost m n := decide (m ≤ n)

theorem upTo_ne_top (n : Nat) : upTo n ≠ ⊤ := WithTop.coe_ne_top

theorem upTo_mono {m n : Nat} (h : m ≤ n) : upTo m ≤ upTo n := by
  refine WithTop.coe_le_coe.mpr (Fin.mk_le_mk.mpr ?_)
  omega

theorem add_one_upTo (n : Nat) : Cost.add (upTo n) (Cost.ofNat 1) = upTo (n + 1) := by
  have hnumber : min (min n (2 ^ 53) + min 1 (2 ^ 53)) (2 ^ 53) = min (n + 1) (2 ^ 53) := by omega
  exact congrArg _ (Fin.ext hnumber)

theorem eq_upTo {c : Count} (h : c ≠ ⊤) : ∃ n ≤ 2 ^ 53, c = upTo n := by
  obtain ⟨n, rfl⟩ := WithTop.ne_top_iff_exists.mp h
  exact ⟨n, by omega, congrArg _ (Fin.ext (min_eq_left (by omega)).symm)⟩

instance : LawfulCost Count where
  less_iff := decide_eq_true_iff
  infinite_eq := rfl
  zero_ne_top := upTo_ne_top 0

/-- One more step brings no count down. -/
theorem climbs_one : Climbs (Cost.ofNat 1 : Count) where
  le_add c := by
    by_cases hc : c = ⊤
    · rw [hc]
      exact le_rfl
    · obtain ⟨n, -, rfl⟩ := eq_upTo hc
      rw [add_one_upTo]
      exact upTo_mono (Nat.le_succ n)
  mono {c d} h := by
    by_cases hd : d = ⊤
    · rw [hd]
      exact le_top
    · obtain ⟨m, hm, rfl⟩ := eq_upTo (ne_top_of_le_ne_top hd h)
      obtain ⟨n, hn, rfl⟩ := eq_upTo hd
      have hle : min m (2 ^ 53) ≤ min n (2 ^ 53) := Fin.mk_le_mk.mp (WithTop.coe_le_coe.mp h)
      rw [add_one_upTo, add_one_upTo]
      exact upTo_mono (by omega)
  ne_top {c} h := by
    obtain ⟨n, -, rfl⟩ := eq_upTo h
    rw [add_one_upTo]
    exact upTo_ne_top _

/-- A count as a double. -/
def toDouble (c : Count) : Float := (WithTop.map (fun n : Fin (2 ^ 53 + 1) => Float.ofNat n) c).untopD (1.0 / 0.0)

theorem toDouble_upTo (n : Nat) : (upTo n).toDouble = Float.ofNat (min n (2 ^ 53)) := rfl

theorem isFinite_toDouble_upTo (n : Nat) : (upTo n).toDouble.isFinite = true :=
  Double.isFinite_ofNat (min_le_right n _)

theorem isFinite_toDouble_top : (⊤ : Count).toDouble.isFinite = false := by
  decide +kernel

theorem toDouble_le {m n : Nat} (h : m ≤ n) : (upTo m).toDouble ≤ (upTo n).toDouble :=
  Double.ofNat_le_ofNat (min_le_right n _) (min_le_min_right _ h)

/-- Counts are compared as doubles as they are as numbers. -/
theorem toDouble_lt_iff (c d : Count) : c.toDouble < d.toDouble ↔ c < d := by
  by_cases hc : c = ⊤ <;> by_cases hd : d = ⊤
  · subst hc hd
    exact iff_of_false (by decide +kernel) (lt_irrefl _)
  · obtain ⟨n, -, rfl⟩ := eq_upTo hd
    subst hc
    exact iff_of_false (Double.lt_infinity_of_isFinite (isFinite_toDouble_upTo n)).2 not_top_lt
  · obtain ⟨m, -, rfl⟩ := eq_upTo hc
    subst hd
    exact iff_of_true (Double.lt_infinity_of_isFinite (isFinite_toDouble_upTo m)).1 (WithTop.coe_lt_top _)
  · obtain ⟨m, -, rfl⟩ := eq_upTo hc
    obtain ⟨n, -, rfl⟩ := eq_upTo hd
    rw [toDouble_upTo, toDouble_upTo, Double.ofNat_lt_ofNat_iff (min_le_right m _) (min_le_right n _)]
    exact (WithTop.coe_lt_coe.trans Fin.mk_lt_mk).symm

theorem toDouble_add_one (c : Count) : (Cost.add c (Cost.ofNat 1)).toDouble = c.toDouble + Float.ofNat 1 := by
  by_cases hc : c = ⊤
  · subst hc
    decide +kernel
  · obtain ⟨n, hn, rfl⟩ := eq_upTo hc
    rw [add_one_upTo, toDouble_upTo, toDouble_upTo, min_eq_left hn]
    rcases hn.lt_or_eq with hless | rfl
    · rw [min_eq_left hless, Double.ofNat_add_one hless]
    · rw [min_eq_right (Nat.le_succ _), Double.ofNat_add_one_last]

end Count

/-! ## Searches that go the same way -/

/-- Costs stand for others in which steps are counted: they are compared in the same way, and one more is the same. -/
structure Mirrors {κ κ' : Type} [Cost κ] [Cost κ'] (image : κ → κ') : Prop where
  less : ∀ c d, Cost.less (image c) (image d) = Cost.less c d
  infinite : image Cost.infinite = Cost.infinite
  zero : image (Cost.ofNat 0) = Cost.ofNat 0
  addOne : ∀ c, image (Cost.add c (Cost.ofNat 1)) = Cost.add (image c) (Cost.ofNat 1)

/-- Doubles stand for counts. -/
theorem mirrors_toDouble : Mirrors Count.toDouble where
  less c d := decide_eq_decide.mpr (Count.toDouble_lt_iff c d)
  infinite := rfl
  zero := rfl
  addOne := Count.toDouble_add_one

namespace Graph

/-- Steps that cost 1 each. -/
def unitSteps {κ : Type} [Cost κ] (next : Nat → List Nat) : Steps κ := fun slot =>
  (next slot).map fun other => (other, Cost.ofNat 1)

/-- The steps of a search without weights. -/
theorem steps_eq_unitSteps {κ : Type} [Cost κ] (g : Graph) :
    (g.steps false false : Steps κ) = unitSteps fun slot => (g.leaving slot).map EdgeView.target := by
  funext slot
  simp [steps, unitSteps]

section Mirrored

variable {κ κ' : Type} (image : κ → κ')

/-- A lead whose cost stands for that of another. -/
def Lead.map (lead : Lead κ) : Lead κ' := ⟨image lead.cost, lead.slot⟩

/-- A search as far as another, with costs that stand for those there. -/
def Search.map (s : Search κ) : Search κ' := ⟨s.costs.map image, s.leads.map (Lead.map image)⟩

variable {image} [Cost κ] [Cost κ'] (h : Mirrors image)
include h

theorem before_map (a b : Lead κ) : (a.map image).before (b.map image) = a.before b := by
  have hcost : ∀ lead : Lead κ, (lead.map image).cost = image lead.cost := fun _ => rfl
  have hslot : ∀ lead : Lead κ, (lead.map image).slot = lead.slot := fun _ => rfl
  simp only [Lead.before, hcost, hslot, h.less]

theorem insert_map (lead : Lead κ) (leads : List (Lead κ)) :
    (lead.map image).insert (leads.map (Lead.map image)) = (lead.insert leads).map (Lead.map image) := by
  induction leads with
  | nil => rfl
  | cons other rest ih =>
      simp only [Lead.insert, List.map_cons, before_map h]
      split
      · rfl
      · rw [ih, List.map_cons]

theorem cost_map (s : Search κ) (slot : Nat) : (s.map image).cost slot = image (s.cost slot) := by
  unfold Search.cost Search.map
  by_cases hslot : slot < s.costs.size
  · simp [Array.getD_eq_getD_getElem?, hslot]
  · simp [Array.getD_eq_getD_getElem?, hslot, h.infinite]

theorem relax_map (c : κ) (s : Search κ) (slot : Nat) :
    Search.relax (image c) (s.map image) (slot, Cost.ofNat 1) = (Search.relax c s (slot, Cost.ofNat 1)).map image := by
  unfold Search.relax
  dsimp only
  rw [← h.addOne, cost_map h, h.less]
  split
  · unfold Search.map
    rw [Array.map_setIfInBounds, ← insert_map h]
    rfl
  · rfl

theorem foldl_relax_map (c : κ) (s : Search κ) (slots : List Nat) :
    (slots.map fun other => (other, Cost.ofNat 1)).foldl (Search.relax (image c)) (s.map image) =
      ((slots.map fun other => (other, Cost.ofNat 1)).foldl (Search.relax c) s).map image := by
  induction slots generalizing s with
  | nil => rfl
  | cons slot rest ih =>
      rw [List.map_cons, List.map_cons, List.foldl_cons, List.foldl_cons, relax_map h, ih]

theorem advance_map (next : Nat → List Nat) (s : Search κ) (lead : Lead κ) (leads : List (Lead κ)) :
    (s.map image).advance (unitSteps next) (lead.map image) (leads.map (Lead.map image)) =
      (s.advance (unitSteps next) lead leads).map image := by
  have hleads : { s.map image with leads := leads.map (Lead.map image) } = Search.map image { s with leads } := rfl
  have hlead : (lead.map image).cost = image lead.cost ∧ (lead.map image).slot = lead.slot := ⟨rfl, rfl⟩
  unfold Search.advance unitSteps
  dsimp only
  rw [hleads, hlead.1, hlead.2, cost_map h, h.less, foldl_relax_map h]
  split <;> rfl

/-- The search goes the same way over costs that stand for others. -/
theorem run_map (next : Nat → List Nat) (turns : Nat) (s : Search κ) :
    Search.run (unitSteps next) turns (s.map image) = (Search.run (unitSteps next) turns s).map (Search.map image) := by
  induction turns generalizing s with
  | zero =>
      have hempty : (s.map image).leads.isEmpty = s.leads.isEmpty := by simp [Search.map]
      unfold Search.run
      rw [hempty]
      split <;> rfl
  | succ turns ih =>
      cases hleads : s.leads with
      | nil =>
          have hnone : (s.map image).leads = [] := by simp [Search.map, hleads]
          simp only [Search.run, hnone, hleads, Option.map_some]
      | cons lead rest =>
          have hsome : (s.map image).leads = lead.map image :: rest.map (Lead.map image) := by simp [Search.map, hleads]
          simp only [Search.run, hsome, hleads, advance_map h, ih]

theorem searchFrom_map (g : Graph) (origin : Nat) :
    (g.searchFrom origin : Search κ') = (g.searchFrom origin : Search κ).map image := by
  simp [searchFrom, Search.map, Lead.map, h.zero, h.infinite]

/-- The distances are those for which the others stand. -/
theorem distancesFrom_map (g : Graph) (start : Nat) :
    (g.distancesFrom start false : Option (List (String × κ'))) =
      (g.distancesFrom start false : Option (List (String × κ))).map
        (List.map fun found => (found.1, image found.2)) := by
  unfold distancesFrom distances
  split
  · simp [h.infinite]
  · dsimp only
    rw [steps_eq_unitSteps, steps_eq_unitSteps, searchFrom_map h, run_map h, Option.map_map, Option.map_map]
    congr 1
    funext s
    simp [cost_map h]

end Mirrored

/-! ## Distances are levels -/

/-- A way of steps that cost 1 each costs as much as it has steps. -/
theorem way_unitSteps_iff {next : Nat → List Nat} {start slot : Nat} {c : Count} :
    Way (unitSteps next) start slot c ↔ ∃ n, Hops next start slot n ∧ c = Count.upTo n := by
  constructor
  · intro h
    induction h with
    | stay => exact ⟨0, .stay, rfl⟩
    | step _ hstep ih =>
        obtain ⟨n, hn, rfl⟩ := ih
        obtain ⟨other, hother, heq⟩ := List.mem_map.mp hstep
        cases heq
        exact ⟨n + 1, hn.step hother, Count.add_one_upTo n⟩
  · rintro ⟨n, h, rfl⟩
    induction h with
    | stay => exact .stay
    | @step slot other n _ hstep ih =>
        rw [← Count.add_one_upTo]
        exact ih.step (List.mem_map.mpr ⟨other, hstep, rfl⟩)

/-- Distances without weights are levels, as far as doubles count, and infinite where no walk leads. -/
theorem distancesFrom_level {g : Graph} (hg : g.Arena) (hindexed : g.Indexed) {start : Nat} (hstart : g.Live start) :
    ∃ dist : Nat → Float, g.distancesFrom start false = some (g.nodeList.map fun n => (n.id, dist n.slot)) ∧
      (∀ {slot}, (∃ n, Hops g.onward start slot n) → dist slot = (Count.upTo (level g.onward start slot)).toDouble) ∧
      ∀ {slot}, (¬ ∃ n, Hops g.onward start slot n) → dist slot = Count.toDouble ⊤ := by
  obtain ⟨cost, hfound, -, hleast⟩ := distances_eq (κ := Count) hg hindexed false false (fun _ _ _ => Count.climbs_one)
    hstart
  have hways : ∀ slot, {c | Way (g.reindex.steps false false) start slot c} =
      {c | ∃ n, Hops g.onward start slot n ∧ c = Count.upTo n} := fun slot => by
    rw [steps_eq_unitSteps]
    exact Set.ext fun c => way_unitSteps_iff
  refine ⟨fun slot => (cost slot).toDouble, ?_, fun {slot} hreached => congrArg Count.toDouble ?_,
    fun {slot} hnone => congrArg Count.toDouble ?_⟩
  · have hfound : g.distancesFrom start false = some (g.nodeList.map fun n => (n.id, cost n.slot)) := hfound
    rw [distancesFrom_map mirrors_toDouble, hfound, Option.map_some, List.map_map]
    rfl
  · refine (hways slot ▸ hleast slot).unique (.inr ⟨Count.upTo_ne_top _, ⟨_, hops_level hreached, rfl⟩, ?_⟩)
    rintro _ ⟨n, hn, rfl⟩
    exact Count.upTo_mono (level_le hn)
  · refine (hways slot ▸ hleast slot).unique (.inl ⟨rfl, Set.eq_empty_iff_forall_notMem.mpr ?_⟩)
    rintro _ ⟨n, hn, -⟩
    exact hnone ⟨n, hn⟩

/-- **Distances without weights** are finite exactly where a walk leads, and in the order of the levels. -/
theorem distancesFrom_ordered {g : Graph} (hg : g.Arena) (hindexed : g.Indexed) {start : Nat} (hstart : g.Live start) :
    ∃ dist : Nat → Float, g.distancesFrom start false = some (g.nodeList.map fun n => (n.id, dist n.slot)) ∧
      (∀ {slot}, (dist slot).isFinite = true ↔ ReflTransGen g.Follows start slot) ∧
      ∀ {a b}, ReflTransGen g.Follows start a → ReflTransGen g.Follows start b →
        level g.onward start a ≤ level g.onward start b → dist a ≤ dist b := by
  obtain ⟨dist, hfound, hnear, hfar⟩ := distancesFrom_level hg hindexed hstart
  have hhops : ∀ {slot}, (∃ n, Hops g.onward start slot n) ↔ ReflTransGen g.Follows start slot :=
    exists_hops_onward_iff hg hindexed
  refine ⟨dist, hfound, fun {slot} => ?_, fun {a b} ha hb hle => ?_⟩
  · rw [← hhops]
    by_cases hreached : ∃ n, Hops g.onward start slot n
    · exact iff_of_true (by rw [hnear hreached, Count.isFinite_toDouble_upTo]) hreached
    · exact iff_of_false (by rw [hfar hreached, Count.isFinite_toDouble_top]; exact Bool.false_ne_true) hreached
  · rw [hnear (hhops.mpr ha), hnear (hhops.mpr hb)]
    exact Count.toDouble_le hle

end Graph

end SearchLab
