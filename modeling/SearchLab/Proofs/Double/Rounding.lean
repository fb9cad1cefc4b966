import Mathlib.Algebra.Order.Archimedean.Basic
import Mathlib.Algebra.Order.Field.Power
import Mathlib.Data.Rat.Floor
import Mathlib.Tactic.Linarith
import Mathlib.Tactic.Positivity
import Mathlib.Tactic.Ring
import SearchLab.Proofs.Double

/-!
# Rounding to doubles

An operation on doubles finds digits of its exact result, and where the result lies between these digits and the next
ones; then digits are dropped until a mantissa is left, which is rounded. `Near` says of a number that it lies nearer to
a double than to any other one, or in the middle and the digits of the double are even.

* `roundWithAccuracy_eq_of_near` — a number is rounded to the double that it is near.
-/

namespace SearchLab.Double

open Float.Model Float.Model.UnpackedFloat Float.Model.Format

/-! ## Where a number lies -/

/-- A number lies where a mantissa and the two bits behind it say: at the point that the mantissa and the first bit
make, or if the second bit is set somewhere in the half behind that point. -/
def Locates (em : ExtendedMantissa) (y : ℚ) : Prop :=
  if em.stickyBit = true then
    (em.mantissa : ℚ) + (if em.roundBit = true then 1 / 2 else 0) < y ∧
      y < em.mantissa + (if em.roundBit = true then 1 / 2 else 0) + 1 / 2
  else y = em.mantissa + if em.roundBit = true then 1 / 2 else 0

namespace Locates

variable {em : ExtendedMantissa} {y : ℚ}

theorem bounds (h : Locates em y) : (em.mantissa : ℚ) ≤ y ∧ y < em.mantissa + 1 := by
  obtain ⟨m, roundBit, stickyBit⟩ := em
  unfold Locates at h
  cases roundBit <;> cases stickyBit <;> simp at h ⊢ <;> constructor <;> linarith

/-- Dropping one digit halves the number. -/
theorem shiftRightOne (h : Locates em y) : Locates em.shiftRightOne (y / 2) := by
  obtain ⟨m, roundBit, stickyBit⟩ := em
  have hhalf : ((m / 2 : Nat) : ℚ) + (if (m % 2 != 0) = true then 1 / 2 else 0) = m / 2 := by
    rcases Nat.mod_two_eq_zero_or_one m with hbit | hbit
    · have hm : (m : ℚ) = 2 * (m / 2 : Nat) := by
        have hdivided : m = 2 * (m / 2) := by omega
        exact_mod_cast hdivided
      simp [hbit]
      linarith
    · have hm : (m : ℚ) = 2 * (m / 2 : Nat) + 1 := by
        have hdivided : m = 2 * (m / 2) + 1 := by omega
        exact_mod_cast hdivided
      simp [hbit]
      linarith
  unfold Locates ExtendedMantissa.shiftRightOne
  dsimp only
  rw [hhalf]
  unfold Locates at h
  cases roundBit <;> cases stickyBit <;> simp at h ⊢
  · exact h
  all_goals constructor <;> linarith

/-- Dropping digits divides the number by a power of two. -/
theorem shiftRight (h : Locates em y) (n : Nat) : Locates (em >>> n) (y / 2 ^ n) := by
  induction n with
  | zero =>
      rw [pow_zero, div_one]
      exact h
  | succ n ih =>
      have hstep := ih.shiftRightOne
      rw [div_div, ← pow_succ] at hstep
      exact hstep

/-- A number is rounded to the natural number that it is nearest to, and to an even one in the middle. -/
theorem roundedMantissa (h : Locates em y) {n : Nat} (hlow : (n : ℚ) - 1 / 2 < y ∨ ((n : ℚ) - 1 / 2 = y ∧ n % 2 = 0))
    (hhigh : y < n + 1 / 2 ∨ (y = (n : ℚ) + 1 / 2 ∧ n % 2 = 0)) : em.roundedMantissa = n := by
  obtain ⟨m, roundBit, stickyBit⟩ := em
  have hlow' : (n : ℚ) - 1 / 2 ≤ y := hlow.elim le_of_lt fun h => le_of_eq h.1
  have hhigh' : y ≤ (n : ℚ) + 1 / 2 := hhigh.elim le_of_lt fun h => le_of_eq h.1
  have hbelow : ∀ {k l : Nat}, (k : ℚ) < l + 1 → k ≤ l := by
    intro k l hkl
    have hkl : k < l + 1 := by exact_mod_cast hkl
    omega
  unfold Locates at h
  unfold ExtendedMantissa.roundedMantissa ExtendedMantissa.accuracy Accuracy.roundToNearestEven
  cases roundBit <;> cases stickyBit <;> simp at h ⊢
  · exact le_antisymm (hbelow (by linarith)) (hbelow (by linarith))
  · exact le_antisymm (hbelow (by linarith)) (hbelow (by linarith))
  · -- The number lies in the middle, so its neighbour is even.
    have hle : m ≤ n := hbelow (by linarith)
    have hge : n ≤ m + 1 := hbelow (by push_cast; linarith)
    obtain rfl | rfl : n = m ∨ n = m + 1 := by omega
    · have heven : n % 2 = 0 := (hhigh.resolve_left (by linarith)).2
      omega
    · have heven : (m + 1) % 2 = 0 := (hlow.resolve_left (by push_cast; linarith)).2
      omega
  · have hle : m + 1 ≤ n := hbelow (by push_cast; linarith)
    have hge : n ≤ m + 1 := hbelow (by push_cast; linarith)
    omega

end Locates

/-! ## The double that a number is near -/

/-- How far below a double the numbers begin that are rounded to it, counted in its last digit. Below the least mantissa
with all its digits, the doubles lie twice as dense. -/
def gapBelow (m : Nat) (q : Int) : ℚ := if m = 2 ^ 52 ∧ q ≠ -1074 then 1 / 4 else 1 / 2

/-- A number is nearer to the double with this mantissa and exponent than to any other one, or it lies in the middle
between two doubles and this is the one with an even mantissa. -/
structure Near (x : ℚ) (m : Nat) (q : Int) : Prop where
  low : (m - gapBelow m q) * 2 ^ q < x ∨ ((m - gapBelow m q) * 2 ^ q = x ∧ m % 2 = 0)
  high : x < (m + 1 / 2) * 2 ^ q ∨ (x = (m + 1 / 2) * 2 ^ q ∧ m % 2 = 0)

theorem zpow_pos_two (q : Int) : (0 : ℚ) < 2 ^ q := zpow_pos two_pos q

theorem lt_of_zpow_lt {a b : Int} (h : (2 : ℚ) ^ a < 2 ^ b) : a < b :=
  (zpow_lt_zpow_iff_right₀ one_lt_two).mp h

theorem targetExponent_binary64 (k : Int) : binary64.targetExponent k = max (k - 53) (-1074) := rfl

/-- A number lies between the powers of two around its leading digit. -/
theorem zpow_totalExponent {n : Nat} {e : Int} (hn : 0 < n) :
    (2 : ℚ) ^ (totalExponent n e - 1) ≤ n * 2 ^ e ∧ ((n : ℚ) + 1) * 2 ^ e ≤ 2 ^ totalExponent n e := by
  have hlow : ((2 ^ n.log2 : Nat) : ℚ) ≤ n := by exact_mod_cast Nat.log2_self_le (Nat.ne_of_gt hn)
  have hhigh : (n : ℚ) + 1 ≤ (2 ^ (n.log2 + 1) : Nat) := by exact_mod_cast Nat.lt_log2_self
  have hexponents : totalExponent n e - 1 = (n.log2 : Int) + e ∧
      totalExponent n e = ((n.log2 + 1 : Nat) : Int) + e := by
    unfold totalExponent
    constructor
    · ring
    · push_cast
      ring
  rw [hexponents.1, hexponents.2, zpow_add₀ two_ne_zero, zpow_add₀ two_ne_zero, zpow_natCast, zpow_natCast]
  push_cast at hlow hhigh
  exact ⟨mul_le_mul_of_nonneg_right hlow (zpow_pos_two e).le, mul_le_mul_of_nonneg_right hhigh (zpow_pos_two e).le⟩

/-- The exponent at which a number has all digits of a mantissa before the point and no more, or the least exponent
where it has fewer. -/
structure AtScale (x : ℚ) (t : Int) : Prop where
  range : -1074 ≤ t
  least : t = -1074 ∨ 2 ^ (t + 52) ≤ x
  most : x < 2 ^ (t + 53)

/-- The digits of a number down to this exponent are enough to round it. -/
def Resolves (e : Int) (x : ℚ) : Prop := e ≤ -1074 ∨ 2 ^ (e + 52) ≤ x

theorem Resolves.le {e t : Int} {x : ℚ} (h : Resolves e x) (ht : AtScale x t) : e ≤ t := by
  rcases h with h | h
  · exact h.trans ht.range
  · have hexponents := lt_of_zpow_lt (h.trans_lt ht.most)
    omega

theorem AtScale.resolves {x : ℚ} {t : Int} (h : AtScale x t) : Resolves t x :=
  h.least.imp_left le_of_eq

/-- The exponent that the digits of a number call for, if there are enough of them. -/
theorem targetExponent_eq {M : Nat} {e t : Int} {x : ℚ} (hlow : M * 2 ^ e ≤ x) (hhigh : x < (M + 1) * 2 ^ e)
    (ht : AtScale x t) (he : Resolves e x) : binary64.targetExponent (totalExponent M e) = t := by
  obtain ⟨hrange, hleast, hmost⟩ := ht
  rw [targetExponent_binary64]
  rcases Nat.eq_zero_or_pos M with rfl | hM
  · have hhigh : x < 2 ^ e := by simpa using hhigh
    have hsmall : e ≤ -1074 := he.resolve_right fun he => by
      have hexponents := lt_of_zpow_lt (he.trans_lt hhigh)
      omega
    have hbottom : t = -1074 := hleast.resolve_right fun hleast => by
      have hexponents := lt_of_zpow_lt (hleast.trans_lt hhigh)
      omega
    rw [totalExponent, Nat.log2_zero]
    omega
  · obtain ⟨hleading, hnext⟩ := zpow_totalExponent (e := e) hM
    have hupper := lt_of_zpow_lt ((hleading.trans hlow).trans_lt hmost)
    rcases hleast with rfl | hleast
    · omega
    · have hlower := lt_of_zpow_lt (hleast.trans_lt (hhigh.trans_le hnext))
      omega

/-- The exponent that a number calls for resolves it. -/
theorem resolves_of_le_targetExponent {t k : Int} {x : ℚ} (ht : t ≤ binary64.targetExponent k) (hk : 2 ^ (k - 1) ≤ x) :
    Resolves t x := by
  rw [targetExponent_binary64] at ht
  rcases le_or_gt t (-1074) with hsmall | hlarge
  · exact .inl hsmall
  · exact .inr ((zpow_le_zpow_right₀ one_le_two (by omega)).trans hk)

/-- Digits are dropped until the mantissa has as many as it may have. -/
theorem shiftToTargetExponent_eq {M : Nat} {e t : Int} {x : ℚ} {accuracy : Accuracy}
    (h : Locates (ExtendedMantissa.ofMantissaAndAccuracy M accuracy) (x / 2 ^ e)) (ht : AtScale x t)
    (he : Resolves e x) :
    ∃ em, shiftToTargetExponent binary64 M e accuracy = (em, t) ∧ Locates em (x / 2 ^ t) := by
  have hmantissa : (ExtendedMantissa.ofMantissaAndAccuracy M accuracy).mantissa = M := by
    unfold ExtendedMantissa.ofMantissaAndAccuracy
    split <;> rfl
  obtain ⟨hlow, hhigh⟩ := h.bounds
  rw [hmantissa, le_div_iff₀ (zpow_pos_two e)] at hlow
  rw [hmantissa, div_lt_iff₀ (zpow_pos_two e)] at hhigh
  have htarget := targetExponent_eq hlow hhigh ht he
  have hbelow := he.le ht
  have hshifted : e + ((t - e).toNat : Int) = t := by omega
  refine ⟨ExtendedMantissa.ofMantissaAndAccuracy M accuracy >>> (t - e).toNat, ?_, ?_⟩
  · unfold shiftToTargetExponent shiftToExponent
    simp only [htarget, hshifted]
  · have hstep := h.shiftRight (t - e).toNat
    rwa [div_div, ← zpow_natCast, ← zpow_add₀ two_ne_zero, hshifted] at hstep

theorem locates_exact (m : Nat) : Locates (ExtendedMantissa.ofMantissaAndAccuracy m .exact) m := by
  simp [Locates, ExtendedMantissa.ofMantissaAndAccuracy]

theorem Canonical.atScale {m : Nat} {q : Int} (h : Canonical m q) : AtScale (m * 2 ^ q) q where
  range := h.least
  least := by
    rcases h.full with hfull | hbottom
    · right
      rw [add_comm, zpow_add₀ two_ne_zero]
      refine mul_le_mul_of_nonneg_right ?_ (zpow_pos_two q).le
      exact_mod_cast hfull
    · exact .inl hbottom
  most := by
    rw [add_comm, zpow_add₀ two_ne_zero]
    refine mul_lt_mul_of_pos_right ?_ (zpow_pos_two q)
    exact_mod_cast h.digits

/-- Of a number whose mantissa is whole at its scale, nothing is lost. -/
theorem shiftToTargetExponent_exact {n m : Nat} {t q : Int} (hvalue : (n : ℚ) * 2 ^ t = m * 2 ^ q)
    (h : Canonical m q) (ht : Resolves t (m * 2 ^ q)) :
    ∃ em, shiftToTargetExponent binary64 n t .exact = (em, q) ∧ em.mantissa = m := by
  have hexact : (m : ℚ) * 2 ^ q / 2 ^ t = n := by
    rw [← hvalue]
    exact mul_div_cancel_right₀ _ (zpow_pos_two t).ne'
  obtain ⟨em, hshift, hlocates⟩ := shiftToTargetExponent_eq (hexact ▸ locates_exact n) h.atScale ht
  rw [mul_div_cancel_right₀ _ (zpow_pos_two q).ne'] at hlocates
  obtain ⟨hlow, hhigh⟩ := hlocates.bounds
  refine ⟨em, hshift, le_antisymm ?_ (Nat.lt_succ_iff.mp ?_)⟩
  · exact_mod_cast hlow
  · exact_mod_cast hhigh

/-- A number is rounded at its scale, and a mantissa that is too large by one is halved then. -/
theorem roundWithAccuracy_eq {M n m : Nat} {e t q : Int} {x : ℚ} {accuracy : Accuracy} (s : Sign)
    (h : Locates (ExtendedMantissa.ofMantissaAndAccuracy M accuracy) (x / 2 ^ e)) (ht : AtScale x t)
    (he : Resolves e x) (hlow : (n : ℚ) - 1 / 2 < x / 2 ^ t ∨ ((n : ℚ) - 1 / 2 = x / 2 ^ t ∧ n % 2 = 0))
    (hhigh : x / 2 ^ t < n + 1 / 2 ∨ (x / 2 ^ t = (n : ℚ) + 1 / 2 ∧ n % 2 = 0))
    (hvalue : (n : ℚ) * 2 ^ t = m * 2 ^ q) (hm : Canonical m q) (htq : Resolves t (m * 2 ^ q)) :
    roundWithAccuracy binary64 s M e accuracy = .finite s m q hm.pos := by
  obtain ⟨em, hfirst, hlocates⟩ := shiftToTargetExponent_eq h ht he
  have hrounded := hlocates.roundedMantissa hlow hhigh
  obtain ⟨em', hsecond, hmantissa⟩ := shiftToTargetExponent_exact hvalue hm htq
  unfold roundWithAccuracy
  rw [hfirst]
  dsimp only
  rw [hrounded, hsecond]
  dsimp only
  subst hmantissa
  exact dif_neg (Nat.ne_of_gt hm.pos)

theorem gapBelow_le (m : Nat) (q : Int) : gapBelow m q ≤ 1 / 2 := by
  unfold gapBelow
  split <;> norm_num

namespace Near

variable {m : Nat} {q : Int} {x : ℚ}

theorem le (h : Near x m q) : x ≤ (m + 1 / 2) * 2 ^ q := h.high.elim le_of_lt fun h => h.1.le

theorem ge (h : Near x m q) : (m - gapBelow m q) * 2 ^ q ≤ x := h.low.elim le_of_lt fun h => h.1.le

/-- A number that is not below the least mantissa with all its digits has them at the scale of the double. -/
theorem atScale (h : Near x m q) (hm : Canonical m q) (hscale : q = -1074 ∨ (2 : ℚ) ^ (q + 52) ≤ x) : AtScale x q := by
  have hdigits : (m : ℚ) + 1 ≤ 2 ^ 53 := by exact_mod_cast hm.digits
  refine ⟨hm.least, hscale, h.le.trans_lt ?_⟩
  rw [add_comm q, zpow_add₀ two_ne_zero]
  refine mul_lt_mul_of_pos_right (lt_of_lt_of_le ?_ hdigits) (zpow_pos_two q)
  linarith

/-- A number below the least mantissa with all its digits is near that one only. -/
theorem eq_least (h : Near x m q) (hm : Canonical m q) (hbottom : q ≠ -1074) (hbelow : x < 2 ^ 52 * 2 ^ q) :
    m = 2 ^ 52 := by
  have hfull := hm.full.resolve_right hbottom
  have hlow : ((m : ℚ) - gapBelow m q) < 2 ^ 52 :=
    lt_of_mul_lt_mul_right (h.ge.trans_lt hbelow) (zpow_pos_two q).le
  have hnext : m < 2 ^ 52 + 1 := by
    have hnext : (m : ℚ) < 2 ^ 52 + 1 := by linarith [gapBelow_le m q]
    exact_mod_cast hnext
  omega

end Near

section

variable {M m : Nat} {e q : Int} {x : ℚ} {accuracy : Accuracy} (s : Sign)
  (h : Locates (ExtendedMantissa.ofMantissaAndAccuracy M accuracy) (x / 2 ^ e)) (he : Resolves e x)
  (hm : Canonical m q) (hx : Near x m q)

include h he hx

theorem roundWithAccuracy_of_scale (hscale : q = -1074 ∨ (2 : ℚ) ^ (q + 52) ≤ x) :
    roundWithAccuracy binary64 s M e accuracy = .finite s m q hm.pos := by
  have hq := zpow_pos_two q
  refine roundWithAccuracy_eq s h (hx.atScale hm hscale) he ?_ ?_ rfl hm hm.atScale.resolves
  · rw [lt_div_iff₀ hq, eq_div_iff hq.ne']
    rcases hx.low with hlow | ⟨hlow, heven⟩
    · exact .inl (lt_of_le_of_lt (mul_le_mul_of_nonneg_right (by linarith [gapBelow_le m q]) hq.le) hlow)
    · rcases (gapBelow_le m q).lt_or_eq with hgap | hgap
      · exact .inl (hlow ▸ mul_lt_mul_of_pos_right (by linarith) hq)
      · exact .inr ⟨hgap ▸ hlow, heven⟩
  · rw [div_lt_iff₀ hq, div_eq_iff hq.ne']
    exact hx.high

/-- A number that lies below the least mantissa with all its digits is rounded up to it, at half the scale. -/
theorem roundWithAccuracy_of_below (hbottom : q ≠ -1074) (hbelow : x < 2 ^ 52 * 2 ^ q) :
    roundWithAccuracy binary64 s M e accuracy = .finite s m q hm.pos := by
  have hleast := hx.eq_least hm hbottom hbelow
  have hgap : gapBelow m q = 1 / 4 := if_pos ⟨hleast, hbottom⟩
  have hhalf : (2 : ℚ) ^ q = 2 * 2 ^ (q - 1) := by
    rw [zpow_sub_one₀ two_ne_zero]
    ring
  have hq := zpow_pos_two (q - 1)
  have hlow := hx.ge
  rw [hgap, hleast, hhalf] at hlow
  rw [hhalf] at hbelow
  push_cast at hlow
  have hatScale : AtScale x (q - 1) := by
    refine ⟨?_, .inr ?_, ?_⟩
    · have hrange := hm.least
      omega
    · rw [add_comm (q - 1), zpow_add₀ two_ne_zero]
      norm_num at hlow ⊢
      linarith
    · rw [add_comm (q - 1), zpow_add₀ two_ne_zero]
      norm_num at hbelow ⊢
      linarith
  have hvalue : ((2 ^ 53 : Nat) : ℚ) * 2 ^ (q - 1) = m * 2 ^ q := by
    rw [hleast, hhalf]
    push_cast
    ring
  refine roundWithAccuracy_eq s h hatScale he ?_ ?_ hvalue hm ?_
  · rw [lt_div_iff₀ hq, eq_div_iff hq.ne']
    push_cast
    rcases hlow.lt_or_eq with hlow | hlow
    · left
      linarith
    · exact .inr ⟨by linarith, by decide⟩
  · rw [div_lt_iff₀ hq]
    left
    push_cast
    linarith
  · right
    rw [hleast, hhalf, add_comm (q - 1), zpow_add₀ two_ne_zero]
    norm_num
    linarith

/-- **A number is rounded to the double that it is near.** -/
theorem roundWithAccuracy_of_near : roundWithAccuracy binary64 s M e accuracy = .finite s m q hm.pos := by
  by_cases hscale : q = -1074 ∨ (2 : ℚ) ^ (q + 52) ≤ x
  · exact roundWithAccuracy_of_scale s h he hm hx hscale
  · obtain ⟨hbottom, hbelow⟩ := not_or.mp hscale
    rw [not_le, add_comm q, zpow_add₀ two_ne_zero] at hbelow
    exact roundWithAccuracy_of_below s h he hm hx hbottom hbelow

end

/-! ## Products and quotients -/

section Operations

variable {m₁ m₂ m : Nat} {e₁ e₂ q : Int} {x : ℚ}

theorem mul_of_near (s₁ s₂ : Sign) (h₁ : 0 < m₁) (h₂ : 0 < m₂) (hvalue : (m₁ * m₂ : ℚ) * 2 ^ (e₁ + e₂) = x)
    (he : Resolves (e₁ + e₂) x) (hm : Canonical m q) (hx : Near x m q) :
    UnpackedFloat.mul binary64 (.finite s₁ m₁ e₁ h₁) (.finite s₂ m₂ e₂ h₂) = .finite (s₁ * s₂) m q hm.pos := by
  refine roundWithAccuracy_of_near _ ?_ he hm hx
  rw [← hvalue, mul_div_cancel_right₀ _ (zpow_pos_two _).ne', ← Nat.cast_mul]
  exact locates_exact (m₁ * m₂)

/-- A quotient and what is known of its rest say where it lies. -/
theorem locates_quotient (n : Nat) {d : Nat} (hd : 0 < d) :
    Locates (ExtendedMantissa.ofMantissaAndAccuracy (n / d) (accuracyOfFraction (n % d) d)) (n / d) := by
  have hd' : (0 : ℚ) < d := by exact_mod_cast hd
  have hparts : (n : ℚ) / d = (n / d : Nat) + (n % d : Nat) / d := by
    have hdivided : (n : ℚ) = d * (n / d : Nat) + (n % d : Nat) := by exact_mod_cast (Nat.div_add_mod n d).symm
    rw [hdivided, add_div, mul_div_cancel_left₀ _ hd'.ne']
  have hrest : ((n % d : Nat) : ℚ) / d < 1 := by
    rw [div_lt_one hd']
    exact_mod_cast Nat.mod_lt n hd
  rw [hparts]
  generalize n / d = k at *
  generalize n % d = r at *
  unfold accuracyOfFraction
  split
  · rename_i hzero
    simpa [hzero] using locates_exact k
  · rename_i hpos
    have hsome : (0 : ℚ) < r / d := div_pos (by exact_mod_cast Nat.pos_of_ne_zero hpos) hd'
    unfold Locates ExtendedMantissa.ofMantissaAndAccuracy
    cases hcompare : compare (2 * r) d with
    | lt =>
        have hless : (2 * r : ℚ) < d := by exact_mod_cast Nat.compare_eq_lt.mp hcompare
        have hfraction : (r : ℚ) / d < 1 / 2 := by
          rw [div_lt_div_iff₀ hd' two_pos]
          linarith
        simp
        constructor <;> linarith
    | eq =>
        have hequal : (2 * r : ℚ) = d := by exact_mod_cast Nat.compare_eq_eq.mp hcompare
        have hfraction : (r : ℚ) / d = 1 / 2 := by
          rw [div_eq_div_iff hd'.ne' two_ne_zero]
          linarith
        simp [hfraction]
    | gt =>
        have hmore : (d : ℚ) < 2 * r := by exact_mod_cast Nat.compare_eq_gt.mp hcompare
        have hfraction : 1 / 2 < (r : ℚ) / d := by
          rw [div_lt_div_iff₀ two_pos hd']
          linarith
        simp
        constructor <;> linarith

theorem div_of_near (s₁ s₂ : Sign) (h₁ : 0 < m₁) (h₂ : 0 < m₂) (hvalue : (m₁ / m₂ : ℚ) * 2 ^ (e₁ - e₂) = x)
    (hm : Canonical m q) (hx : Near x m q) :
    UnpackedFloat.div binary64 (.finite s₁ m₁ e₁ h₁) (.finite s₂ m₂ e₂ h₂) = .finite (s₁ / s₂) m q hm.pos := by
  unfold UnpackedFloat.div divCore
  dsimp only
  generalize ht : min (e₁ - e₂) (binary64.targetExponent (totalExponent m₁ e₁ - totalExponent m₂ e₂)) = t
  have hshifted : e₁ - e₂ = ((e₁ - e₂ - t).toNat : Int) + t := by omega
  refine roundWithAccuracy_of_near _ ?_ ?_ hm hx
  · have hquotient := locates_quotient (m₁ <<< (e₁ - e₂ - t).toNat) h₂
    have hnumber : x / 2 ^ t = ((m₁ <<< (e₁ - e₂ - t).toNat : Nat) : ℚ) / m₂ := by
      rw [← hvalue, hshifted, zpow_add₀ two_ne_zero, zpow_natCast, ← mul_assoc,
        mul_div_cancel_right₀ _ (zpow_pos_two t).ne', ← hshifted, Nat.shiftLeft_eq]
      push_cast
      ring
    rwa [hnumber]
  · obtain ⟨hlow, -⟩ := zpow_totalExponent (e := e₁) h₁
    obtain ⟨-, hhigh⟩ := zpow_totalExponent (e := e₂) h₂
    refine resolves_of_le_targetExponent (ht ▸ min_le_right _ _) ?_
    calc (2 : ℚ) ^ (totalExponent m₁ e₁ - totalExponent m₂ e₂ - 1)
      _ = 2 ^ (totalExponent m₁ e₁ - 1) / 2 ^ totalExponent m₂ e₂ := by
          rw [← zpow_sub₀ two_ne_zero]
          ring_nf
      _ ≤ m₁ * 2 ^ e₁ / (m₂ * 2 ^ e₂) :=
          div_le_div₀ ((zpow_pos_two _).le.trans hlow) hlow (mul_pos (by exact_mod_cast h₂) (zpow_pos_two e₂))
            ((mul_le_mul_of_nonneg_right (by linarith) (zpow_pos_two e₂).le).trans hhigh)
      _ = x := by rw [← hvalue, zpow_sub₀ two_ne_zero, mul_div_mul_comm]

theorem round_of_near (s : Sign) {n : Nat} {e : Int} (hn : 0 < n) (hvalue : (n : ℚ) * 2 ^ e = x) (hm : Canonical m q)
    (hx : Near x m q) : UnpackedFloat.round binary64 s n e = .finite s m q hm.pos := by
  unfold UnpackedFloat.round decreaseExponent
  dsimp only
  generalize ht : binary64.targetExponent (totalExponent n e) = t
  have hexponent : e - ((e - t).toNat : Int) ≤ t := by omega
  refine roundWithAccuracy_of_near s ?_ (resolves_of_le_targetExponent (hexponent.trans_eq ht.symm) ?_) hm hx
  · have hnumber : x / 2 ^ (e - ((e - t).toNat : Int)) = (n <<< (e - t).toNat : Nat) := by
      rw [← hvalue, zpow_sub₀ two_ne_zero, zpow_natCast, Nat.shiftLeft_eq, div_div_eq_mul_div,
        mul_right_comm, mul_div_cancel_right₀ _ (zpow_pos_two e).ne']
      push_cast
      rfl
    rw [hnumber]
    exact locates_exact _
  · rw [← hvalue]
    exact (zpow_totalExponent hn).1

end Operations

/-! ## Decimal numbers -/

section Scientific

variable {M m : Nat} {q : Int}

theorem near_self (m : Nat) (q : Int) : Near (m * 2 ^ q) m q where
  low := .inl (mul_lt_mul_of_pos_right (by unfold gapBelow; split <;> linarith) (zpow_pos_two q))
  high := .inl (mul_lt_mul_of_pos_right (by linarith) (zpow_pos_two q))

theorem ofScientific_of_near {e : Int} (hM : 0 < M) (hmost : e ≤ 2 ^ 11) (hleast : -(2 ^ 11 + (M.log2 : Int)) ≤ e)
    (hm : Canonical m q) (hx : Near (M * 10 ^ e) m q) :
    UnpackedFloat.ofScientific binary64 M e = .finite .positive m q hm.pos := by
  have hMne : M ≠ 0 := Nat.ne_of_gt hM
  unfold UnpackedFloat.ofScientific
  rw [dif_neg hMne, if_neg (not_lt.mpr hmost), if_neg (not_lt.mpr hleast)]
  by_cases hsign : 0 ≤ e
  · rw [if_pos hsign]
    obtain ⟨k, rfl⟩ := Int.eq_ofNat_of_zero_le hsign
    have hexponent : (-(binary64.mantissaBits : Int) + 0) = -53 := rfl
    have hone : (1 : ℚ) ≤ M * 10 ^ k := one_le_mul_of_one_le_of_one_le (by exact_mod_cast hM) (one_le_pow₀ (by norm_num))
    refine mul_of_near .positive .positive _ _ ?_ (.inr ?_) hm hx
    · rw [hexponent, Nat.shiftLeft_eq]
      push_cast [Int.toNat_natCast, zpow_natCast]
      have hbits : (2 : ℚ) ^ binary64.mantissaBits * 2 ^ (-53 : Int) = 1 := by
        rw [zpow_neg]
        exact mul_inv_cancel₀ (by norm_num)
      rw [mul_right_comm, mul_assoc (M : ℚ), hbits, mul_one]
    · rw [hexponent, zpow_natCast]
      norm_num
      linarith
  · rw [if_neg hsign]
    obtain ⟨k, hk⟩ := Int.eq_ofNat_of_zero_le (show 0 ≤ -e by omega)
    obtain rfl : e = -(k : Int) := by omega
    refine div_of_near .positive .positive _ _ ?_ hm hx
    rw [sub_zero, zpow_zero, mul_one, zpow_neg, zpow_natCast, neg_neg, Int.toNat_natCast, div_eq_mul_inv]
    push_cast
    rfl

/-! ### Of few digits -/

/-- A number below `2^53` moved up to where it has all digits of a mantissa. -/
theorem canonical_shift {n : Nat} {k : Int} (hpos : 0 < n) (hsmall : n < 2 ^ 53) (hlow : -1022 ≤ k)
    (hhigh : k ≤ 971) :
    Canonical (n * 2 ^ (52 - n.log2)) (k + n.log2 - 52) ∧
      ((n * 2 ^ (52 - n.log2) : Nat) : ℚ) * 2 ^ (k + n.log2 - 52) = n * 2 ^ k ∧ 2 ^ 52 ≤ n * 2 ^ (52 - n.log2) := by
  have hlog : n.log2 ≤ 52 := by
    have hlog := (Nat.log2_lt (Nat.ne_of_gt hpos)).mpr hsmall
    omega
  have hsplit : ∀ j, 2 ^ j * 2 ^ (52 - n.log2) = 2 ^ (j + 52 - n.log2) := fun j => by
    rw [← pow_add, ← Nat.add_sub_assoc hlog]
  have hlower : 2 ^ 52 ≤ n * 2 ^ (52 - n.log2) := by
    have hleading := Nat.mul_le_mul_right (2 ^ (52 - n.log2)) (Nat.log2_self_le (Nat.ne_of_gt hpos))
    rwa [hsplit, Nat.add_sub_cancel_left] at hleading
  have hupper : n * 2 ^ (52 - n.log2) < 2 ^ 53 := by
    have hnext := Nat.mul_lt_mul_of_pos_right (Nat.lt_log2_self (n := n)) (Nat.two_pow_pos (52 - n.log2))
    rwa [hsplit, show n.log2 + 1 + 52 - n.log2 = 53 by omega] at hnext
  refine ⟨⟨Nat.mul_pos hpos (Nat.two_pow_pos _), hupper, by omega, by omega, .inl hlower⟩, ?_, hlower⟩
  have hexponents : k = ((52 - n.log2 : Nat) : Int) + (k + n.log2 - 52) := by omega
  conv_rhs => rw [hexponents, zpow_add₀ two_ne_zero, zpow_natCast]
  push_cast
  ring

/-- A double is this number, with all digits of a mantissa. -/
def IsExactly (x : Float) (v : ℚ) : Prop :=
  ∃ m q hm, x.toModel.unpack = .finite .positive m q hm ∧ (m : ℚ) * 2 ^ q = v ∧ 2 ^ 52 ≤ m

/-- A product of doubles is the double that the product of their numbers is near. -/
theorem IsExactly.mul {x y : Float} {v w : ℚ} (hx : IsExactly x v) (hy : IsExactly y w) (hm : Canonical m q)
    (h : Near (v * w) m q) : (x * y).toModel.unpack = .finite .positive m q hm.pos := by
  obtain ⟨m₁, e₁, h₁, hunpack₁, rfl, hfull⟩ := hx
  obtain ⟨m₂, e₂, h₂, hunpack₂, rfl, -⟩ := hy
  have hmodel : (x * y).toModel.unpack = UnpackedFloat.unpack binary64 (UnpackedFloat.pack binary64
      (UnpackedFloat.mul binary64 x.toModel.unpack y.toModel.unpack)) := rfl
  rw [hmodel, hunpack₁, hunpack₂, mul_of_near .positive .positive h₁ h₂ ?_ (.inr ?_) hm h]
  · exact unpack_pack_finite .positive hm
  · rw [zpow_add₀ two_ne_zero, mul_mul_mul_comm]
  · rw [mul_mul_mul_comm, ← zpow_add₀ two_ne_zero, add_comm _ 52, zpow_add₀ two_ne_zero]
    refine mul_le_mul_of_nonneg_right ?_ (zpow_pos_two _).le
    exact_mod_cast hfull.trans (Nat.le_mul_of_pos_right m₁ h₂)

/-- A quotient of doubles is the double that the quotient of their numbers is near. -/
theorem IsExactly.div {x y : Float} {v w : ℚ} (hx : IsExactly x v) (hy : IsExactly y w) (hm : Canonical m q)
    (h : Near (v / w) m q) : (x / y).toModel.unpack = .finite .positive m q hm.pos := by
  obtain ⟨m₁, e₁, h₁, hunpack₁, rfl, -⟩ := hx
  obtain ⟨m₂, e₂, h₂, hunpack₂, rfl, -⟩ := hy
  have hmodel : (x / y).toModel.unpack = UnpackedFloat.unpack binary64 (UnpackedFloat.pack binary64
      (UnpackedFloat.div binary64 x.toModel.unpack y.toModel.unpack)) := rfl
  rw [hmodel, hunpack₁, hunpack₂, div_of_near .positive .positive h₁ h₂ ?_ hm h]
  · exact unpack_pack_finite .positive hm
  · rw [zpow_sub₀ two_ne_zero, div_mul_div_comm]

/-- A word is the double that its number is near. -/
theorem unpack_toFloat {n : UInt64} (hpos : 0 < n.toNat) (hm : Canonical m q) (h : Near n.toNat m q) :
    n.toFloat.toModel.unpack = .finite .positive m q hm.pos := by
  have hround := round_of_near .positive (e := 0) hpos (by rw [zpow_zero, mul_one]) hm h
  have hnormalize : UnpackedFloat.ofUInt64 binary64 n =
      UnpackedFloat.round binary64 .positive n.toNat 0 := by
    have hsign : compare (n.toNat : Int) 0 = .gt := Int.compare_eq_gt.mpr (by omega)
    unfold UnpackedFloat.ofUInt64 UnpackedFloat.ofNat UnpackedFloat.ofInt UnpackedFloat.normalize
    rw [hsign]
    rfl
  have hmodel : n.toFloat.toModel.unpack =
      UnpackedFloat.unpack binary64 (UnpackedFloat.pack binary64 (UnpackedFloat.ofUInt64 binary64 n)) := rfl
  rw [hmodel, hnormalize, hround]
  exact unpack_pack_finite _ hm

theorem isExactly_toFloat {n : UInt64} (hpos : 0 < n.toNat) (hsmall : n.toNat < 2 ^ 53) :
    IsExactly n.toFloat n.toNat := by
  obtain ⟨hm, hvalue, hfull⟩ := canonical_shift (k := 0) hpos hsmall (by decide) (by decide)
  rw [zpow_zero, mul_one] at hvalue
  exact ⟨_, _, hm.pos, unpack_toFloat hpos hm (hvalue ▸ near_self _ _), hvalue, hfull⟩

/-- The powers of ten that doubles hold. -/
theorem exactlyRepresentable_eq (k : Fin 23) :
    Float.exactlyRepresentablePowersOfTen[k] =
      .ofModel (.pack (.finite .positive (5 ^ k.val * 2 ^ (52 - (5 ^ k.val).log2)) (k.val + (5 ^ k.val).log2 - 52)
        (Nat.mul_pos (Nat.pow_pos (Nat.succ_pos 4)) (Nat.two_pow_pos _)))) := by
  revert k
  decide

theorem isExactly_powerOfTen {k : Nat} (h : k < Float.exactlyRepresentablePowersOfTen.size) :
    IsExactly Float.exactlyRepresentablePowersOfTen[k] (10 ^ k) := by
  have hk : k < 23 := h
  have hsmall : 5 ^ k < 2 ^ 53 := (Nat.pow_le_pow_right (by decide) (Nat.le_of_lt_succ hk)).trans_lt (by decide)
  obtain ⟨hm, hvalue, hfull⟩ := canonical_shift (k := k) (Nat.pow_pos (by decide : 0 < 5)) hsmall (by omega) (by omega)
  refine ⟨_, k + (5 ^ k).log2 - 52, hm.pos, ?_, ?_, hfull⟩
  · rw [show Float.exactlyRepresentablePowersOfTen[k] = _ from exactlyRepresentable_eq ⟨k, hk⟩]
    exact unpack_pack_finite _ hm
  · rw [hvalue, zpow_natCast]
    push_cast
    rw [← mul_pow]
    norm_num

/-- **A decimal number is read as the double that it is near.** -/
theorem unpack_ofScientific {s : Bool} {e : Nat} (hM : 0 < M) (he : e ≤ 2 ^ 11) (hm : Canonical m q)
    (hx : Near (M * 10 ^ (if s = true then -(e : Int) else e)) m q) :
    (Float.ofScientific M s e).toModel.unpack = .finite .positive m q hm.pos := by
  unfold Float.ofScientific
  by_cases hfew : M < 2 ^ 53 ∧ e ≤ 22
  · rw [dif_pos hfew]
    obtain ⟨hdigits, hpower⟩ := hfew
    have hnat : M.toUInt64.toNat = M := by
      rw [Nat.toUInt64_eq, UInt64.toNat_ofNat', Nat.mod_eq_of_lt (hdigits.trans (by decide))]
    have hdigits' : IsExactly M.toUInt64.toFloat M := by
      have hexact := isExactly_toFloat (n := M.toUInt64) (by rw [hnat]; exact hM) (by rw [hnat]; exact hdigits)
      rwa [hnat] at hexact
    have hpower' := isExactly_powerOfTen (k := e) (Nat.lt_succ_of_le hpower)
    cases s
    · simp only [Bool.false_eq_true, if_false, zpow_natCast] at hx
      exact hdigits'.mul hpower' hm hx
    · simp only [if_true, zpow_neg, zpow_natCast, ← div_eq_mul_inv] at hx
      exact hdigits'.div hpower' hm hx
  · rw [dif_neg hfew]
    have hexponent : (if s = true then Int.negOfNat e else Int.ofNat e) = if s = true then -(e : Int) else e := by
      cases s
      · rfl
      · exact Int.negOfNat_eq
    have hmodel : ∀ k : Int, (Float.ofModel (Float.Model.ofScientific M k)).toModel.unpack =
        UnpackedFloat.unpack binary64 (UnpackedFloat.pack binary64 (UnpackedFloat.ofScientific binary64 M k)) :=
      fun _ => rfl
    rw [hexponent, hmodel, ofScientific_of_near hM ?_ ?_ hm hx]
    · exact unpack_pack_finite .positive hm
    · split <;> omega
    · split <;> omega

end Scientific

/-! ## Whole numbers -/

/-- There is a natural number that a number is nearest to, or an even one in the middle. -/
theorem exists_nearest {y : ℚ} (hy : 0 ≤ y) :
    ∃ n : Nat, (((n : ℚ) - 1 / 2 < y ∨ ((n : ℚ) - 1 / 2 = y ∧ n % 2 = 0)) ∧
      (y < n + 1 / 2 ∨ (y = (n : ℚ) + 1 / 2 ∧ n % 2 = 0))) ∧ ⌊y⌋₊ ≤ n ∧ n ≤ ⌊y⌋₊ + 1 := by
  have hlow : (⌊y⌋₊ : ℚ) ≤ y := Nat.floor_le hy
  have hhigh : y < ⌊y⌋₊ + 1 := Nat.lt_floor_add_one y
  generalize ⌊y⌋₊ = k at hlow hhigh ⊢
  rcases lt_trichotomy y (k + 1 / 2) with hless | hequal | hmore
  · exact ⟨k, ⟨.inl (by linarith), .inl hless⟩, le_refl k, Nat.le_succ k⟩
  · rcases Nat.mod_two_eq_zero_or_one k with heven | hodd
    · exact ⟨k, ⟨.inl (by linarith), .inr ⟨hequal, heven⟩⟩, le_refl k, Nat.le_succ k⟩
    · refine ⟨k + 1, ⟨.inr ⟨?_, by omega⟩, .inl ?_⟩, Nat.le_succ k, le_refl _⟩
      · push_cast
        linarith
      · push_cast
        linarith
  · refine ⟨k + 1, ⟨.inl ?_, .inl ?_⟩, Nat.le_succ k, le_refl _⟩
    · push_cast
      linarith
    · push_cast
      linarith

/-- From one up, each number is near a double, as long as doubles go. -/
theorem exists_near {x : ℚ} (hx : 1 ≤ x) (hmost : x < 2 ^ 1000) : ∃ m q, Canonical m q ∧ Near x m q := by
  obtain ⟨k, hk⟩ := exists_mem_Ico_zpow (zero_lt_one.trans_le hx) (one_lt_two : (1 : ℚ) < 2)
  obtain ⟨hlow, hhigh⟩ := Set.mem_Ico.mp hk
  have hrange : -1 < k ∧ k < 1000 := by
    constructor
    · have hpow : (2 : ℚ) ^ (0 : Int) < 2 ^ (k + 1) := hx.trans_lt hhigh
      have hexponents := lt_of_zpow_lt hpow
      omega
    · exact lt_of_zpow_lt (hlow.trans_lt (by exact_mod_cast hmost))
  generalize hq : k - 52 = q at *
  obtain rfl : k = 52 + q := by omega
  have hpos := zpow_pos_two q
  have hnext : (2 : ℚ) ^ (52 + q + 1) = 2 ^ 53 * 2 ^ q := by
    rw [show 52 + q + 1 = 53 + q by ring, zpow_add₀ two_ne_zero]
    rfl
  rw [zpow_add₀ two_ne_zero, ← le_div_iff₀ hpos] at hlow
  rw [hnext, ← div_lt_iff₀ hpos] at hhigh
  have hfloor : 2 ^ 52 ≤ ⌊x / 2 ^ q⌋₊ ∧ ⌊x / 2 ^ q⌋₊ < 2 ^ 53 := by
    constructor
    · exact Nat.le_floor (by exact_mod_cast hlow)
    · exact (Nat.floor_lt (by linarith)).mpr (by exact_mod_cast hhigh)
  obtain ⟨n, ⟨hbelow, habove⟩, hmin, hmax⟩ := exists_nearest (y := x / 2 ^ q) (by linarith)
  rw [lt_div_iff₀ hpos, eq_div_iff hpos.ne'] at hbelow
  rw [div_lt_iff₀ hpos, div_eq_iff hpos.ne'] at habove
  rcases Nat.lt_or_ge n (2 ^ 53) with hdigits | hcarry
  · refine ⟨n, q, ⟨by omega, hdigits, by omega, by omega, .inl (by omega)⟩, ?_, habove⟩
    by_cases hleast : n = 2 ^ 52
    · rw [hleast, gapBelow, if_pos ⟨rfl, by omega⟩]
      refine .inl (lt_of_lt_of_le ?_ ((le_div_iff₀ hpos).mp hlow))
      refine mul_lt_mul_of_pos_right ?_ hpos
      push_cast
      norm_num
    · rwa [gapBelow, if_neg fun h => hleast h.1]
  · obtain rfl : n = 2 ^ 53 := by omega
    have hdouble : (2 : ℚ) ^ (q + 1) = 2 * 2 ^ q := by
      rw [zpow_add_one₀ two_ne_zero, mul_comm]
    refine ⟨2 ^ 52, q + 1, ⟨by omega, by omega, by omega, by omega, .inl le_rfl⟩, ?_, ?_⟩
    · rw [gapBelow, if_pos ⟨rfl, by omega⟩, hdouble]
      push_cast at hbelow ⊢
      rcases hbelow with hbelow | ⟨hbelow, -⟩
      · left
        linarith
      · exact .inr ⟨by linarith, by decide⟩
    · rw [hdouble]
      rw [div_lt_iff₀ hpos] at hhigh
      left
      push_cast
      linarith

theorem isInf_of_unpack {x : Float} {s : Sign} {m : Nat} {q : Int} {hm : 0 < m}
    (h : x.toModel.unpack = .finite s m q hm) : x.isInf = false := by
  have hmodel : x.isInf = x.toModel.unpack.isInf := rfl
  rw [hmodel, h]
  rfl

/-- Words and what lies around them are near doubles. -/
theorem exists_near_of_word {n : Nat} (hpos : 0 < n) (h : n ≤ 2 ^ 64) : ∃ m q, Canonical m q ∧ Near n m q := by
  have hone : (1 : ℚ) ≤ n := by exact_mod_cast hpos
  have hmost : (n : ℚ) < 2 ^ 1000 := by
    have hbound : (n : ℚ) ≤ 2 ^ 64 := by exact_mod_cast h
    exact hbound.trans_lt (pow_lt_pow_right₀ one_lt_two (by decide))
  exact exists_near hone hmost

theorem unpack_ofNat {n : Nat} (hpos : 0 < n) {m : Nat} {q : Int} (hm : Canonical m q) (h : Near n m q) :
    (Float.ofNat n).toModel.unpack = .finite .positive m q hm.pos :=
  unpack_ofScientific (s := false) (e := 0) hpos (Nat.zero_le _) hm (by simpa using h)

theorem isInf_ofNat {n : Nat} (h : n ≤ 2 ^ 64) : (Float.ofNat n).isInf = false := by
  rcases Nat.eq_zero_or_pos n with rfl | hpos
  · decide
  · obtain ⟨m, q, hm, hnear⟩ := exists_near_of_word hpos h
    exact isInf_of_unpack (unpack_ofNat hpos hm hnear)

/-- A word and its number are the same double. -/
theorem toFloat_eq_ofNat (n : UInt64) : n.toFloat = Float.ofNat n.toNat := by
  rcases Nat.eq_zero_or_pos n.toNat with hzero | hpos
  · obtain rfl : n = 0 := UInt64.toNat_inj.mp hzero
    decide +kernel
  · obtain ⟨m, q, hm, hnear⟩ := exists_near_of_word hpos (Nat.le_of_lt n.toNat_lt)
    have hword := unpack_toFloat hpos hm hnear
    exact eq_of_unpack (hword.trans (unpack_ofNat hpos hm hnear).symm) fun hnone => by cases hword.symm.trans hnone

/-- Whole numbers of sixty-four digits are finite. -/
theorem isInf_ofInt {n : Int} (hlow : -2 ^ 64 ≤ n) (hhigh : n ≤ 2 ^ 64) : (Float.ofInt n).isInf = false := by
  cases n with
  | ofNat n => exact isInf_ofNat (Int.ofNat_le.mp hhigh)
  | negSucc n => exact (isInf_neg _).trans (isInf_ofNat (by omega))

end SearchLab.Double
