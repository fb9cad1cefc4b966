import Mathlib.Algebra.Order.Monoid.WithTop
import Mathlib.Algebra.Order.Ring.Rat
import Mathlib.Tactic.NormNum
import SearchLab.Graph.Cost
import SearchLab.Proofs.Double.Counting

/-!
# Exact costs

Costs as rational numbers, with one number above all others that no path reaches. Nothing is rounded: a double stands for
the number that it is. A double that is no number, or infinite, stands for the one above all others.

* `LawfulCost` — costs that are compared as the members of a linear order are;
* `Climbs` — what costs something: adding it brings nothing down, and keeps the order;
* `Double.rational?` — the number that a double is;
* `Double.zero_of_rational?` — against zero, a double is what its number is;
* `climbs_of_nonneg` — exact costs are lawful, and no number that is not below zero brings them down.
-/

namespace SearchLab

/-- The number that a double is, if it is finite. -/
def Double.rational? (x : Float) : Option ℚ :=
  match x.toModel.unpack with
  | .finite .positive m e _ => some (m * 2 ^ e)
  | .finite .negative m e _ => some (-(m * 2 ^ e))
  | .zero _ => some 0
  | _ => none

example : Double.rational? 2.5 = some (5 / 2) := by decide +kernel

example : Double.rational? (-0.0) = some 0 := by decide +kernel

namespace Double

open Float.Model Float.Model.UnpackedFloat

variable {x : Float} {q : ℚ}

/-- The doubles that are numbers, by their sign. -/
theorem rational?_cases (h : rational? x = some q) :
    (∃ s, x.toModel.unpack = .zero s ∧ q = 0) ∨ (∃ m e hm, x.toModel.unpack = .finite .positive m e hm ∧ 0 < q) ∨
      ∃ m e hm, x.toModel.unpack = .finite .negative m e hm ∧ q < 0 := by
  unfold rational? at h
  cases hx : x.toModel.unpack with
  | notANumber => simp [hx] at h
  | infinity s => simp [hx] at h
  | zero s =>
      rw [hx] at h
      exact .inl ⟨s, rfl, (Option.some.inj h).symm⟩
  | finite s m e hm =>
      have hpos : (0 : ℚ) < m * 2 ^ e := mul_pos (Nat.cast_pos.mpr hm) (zpow_pos two_pos e)
      rw [hx] at h
      cases s with
      | positive => exact .inr (.inl ⟨m, e, hm, rfl, Option.some.inj h ▸ hpos⟩)
      | negative => exact .inr (.inr ⟨m, e, hm, rfl, Option.some.inj h ▸ neg_neg_of_pos hpos⟩)

/-- A double that is a number is finite. -/
theorem isFinite_of_rational? (h : rational? x = some q) : x.isNaN = false ∧ x.isInf = false := by
  have hnan : x.isNaN = x.toModel.unpack.isNaN := rfl
  have hinf : x.isInf = x.toModel.unpack.isInf := rfl
  rw [hnan, hinf]
  rcases rational?_cases h with ⟨s, hx, -⟩ | ⟨m, e, hm, hx, -⟩ | ⟨m, e, hm, hx, -⟩ <;> rw [hx] <;> exact ⟨rfl, rfl⟩

/-- A double that is a number is against zero what the number is. -/
theorem zero_of_rational? (h : rational? x = some q) :
    ((x == 0.0) = true ↔ q = 0) ∧ (0.0 ≤ x ↔ 0 ≤ q) ∧ (x < 0.0 ↔ q < 0) := by
  have hequal : (x == 0.0) = (x.toModel.unpack.compare (0.0 : Float).toModel.unpack == some .eq) := rfl
  rw [hequal, le_iff, lt_iff, unpack_zero]
  rcases rational?_cases h with ⟨s, hx, rfl⟩ | ⟨m, e, hm, hx, hq⟩ | ⟨m, e, hm, hx, hq⟩ <;> rw [hx]
  · exact ⟨iff_of_true rfl rfl, iff_of_true rfl le_rfl, iff_of_false nofun (lt_irrefl 0)⟩
  · exact ⟨iff_of_false nofun hq.ne', iff_of_true rfl hq.le, iff_of_false nofun hq.le.not_gt⟩
  · exact ⟨iff_of_false nofun hq.ne, iff_of_false nofun hq.not_ge, iff_of_true rfl hq⟩

/-- What is below zero is not above it. -/
theorem not_zero_le_of_lt_zero (h : x < 0.0) : ¬ 0.0 ≤ x := by
  rw [lt_iff, unpack_zero] at h
  rw [le_iff, unpack_zero]
  cases hx : x.toModel.unpack with
  | notANumber => nofun
  | infinity s =>
      rw [hx] at h
      cases s with
      | positive => cases h
      | negative => nofun
  | zero s =>
      rw [hx] at h
      cases h
  | finite s m e hm =>
      rw [hx] at h
      cases s with
      | positive => cases h
      | negative => nofun

end Double

namespace Cost

/-- Costs that are compared as the members of a linear order are, the one that no path reaches being above all others. -/
class LawfulCost (κ : Type) [LinearOrder κ] [OrderTop κ] [Cost κ] : Prop where
  less_iff : ∀ {x y : κ}, less x y = true ↔ x < y
  infinite_eq : (infinite : κ) = ⊤
  zero_ne_top : (ofNat 0 : κ) ≠ ⊤

/-- Adding this brings no cost down, keeps the order, and leads no path out of reach. -/
structure Climbs {κ : Type} [LinearOrder κ] [OrderTop κ] [Cost κ] (w : κ) : Prop where
  le_add : ∀ c : κ, c ≤ add c w
  mono : ∀ {c d : κ}, c ≤ d → add c w ≤ add d w
  ne_top : ∀ {c : κ}, c ≠ ⊤ → add c w ≠ ⊤

/-- Rational numbers as costs, and one above all others. -/
instance : Cost (WithTop ℚ) where
  ofInt n := ((n : ℚ) : WithTop ℚ)
  ofFloat x := (Double.rational? x).elim ⊤ fun q => (q : WithTop ℚ)
  infinite := ⊤
  add := (· + ·)
  sub := WithTop.map₂ (· - ·)
  mul := WithTop.map₂ (· * ·)
  min x y := Min.min x y
  less x y := decide (x < y)
  atMost x y := decide (x ≤ y)

@[simp] theorem ofNat_eq (n : Nat) : (ofNat n : WithTop ℚ) = n := by
  have hcast : (((n : Int) : ℚ) : WithTop ℚ) = ((n : ℚ) : WithTop ℚ) := by rw [Int.cast_natCast]
  exact hcast

/-- A double that is a number costs this number. -/
theorem ofFloat_of_rational? {x : Float} {q : ℚ} (h : Double.rational? x = some q) : (ofFloat x : WithTop ℚ) = q := by
  have hvalue : (ofFloat x : WithTop ℚ) = (Double.rational? x).elim ⊤ fun q => (q : WithTop ℚ) := rfl
  rw [hvalue, h, Option.elim_some]

instance : LawfulCost (WithTop ℚ) where
  less_iff := decide_eq_true_iff
  infinite_eq := rfl
  zero_ne_top := by simp

theorem climbs_of_nonneg {q : ℚ} (h : 0 ≤ q) : Climbs (q : WithTop ℚ) where
  le_add c := le_add_of_nonneg_right (by exact_mod_cast h)
  mono hle := add_le_add_left hle (q : WithTop ℚ)
  ne_top hc := WithTop.add_ne_top.mpr ⟨hc, WithTop.coe_ne_top⟩

end Cost

end SearchLab
