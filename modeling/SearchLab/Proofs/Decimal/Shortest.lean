import Mathlib.Algebra.Order.Floor.Semifield
import SearchLab.Decimal.Layout
import SearchLab.Proofs.Double.Rounding

/-!
# The digits that are found

The decimals that `withDigits?` looks at lie on a grid, and the double lies between two of them. One that the interval
around the double holds is near the double. With seventeen digits the grid is finer than the interval is wide, so that
one of the two neighbours is in it.

* `surrounds_ofBits` — the interval of a double;
* `near_of_withDigits?` — what digits stand for is near the double;
* `shortest_spec` — there are digits, and no more than seventeen.
-/

namespace SearchLab.Decimal

open Double
open Float.Model Float.Model.UnpackedFloat Float.Model.Format

/-- The number that a decimal stands for. -/
def Digits.toRat (d : Digits) : ℚ := d.number * 10 ^ (d.point - (Nat.toDigits 10 d.number).length)

/-! ## The interval of a double -/

/-- A power of two or ten as a quotient of natural numbers. -/
theorem zpow_eq_div {b : ℚ} (hb : b ≠ 0) (k : Int) : b ^ k = b ^ k.toNat / b ^ (-k).toNat := by
  conv_lhs => rw [← Int.toNat_sub_toNat_neg k, zpow_natCast_sub_natCast₀ hb]

/-- An interval holds what is near the double `m · 2^q`. -/
structure Interval.Surrounds (i : Interval) (m : Nat) (q : Int) : Prop where
  den : 0 < i.den
  low : (i.low / i.den : ℚ) = (m - gapBelow m q) * 2 ^ q
  value : (i.value / i.den : ℚ) = m * 2 ^ q
  high : (i.high / i.den : ℚ) = (m + 1 / 2) * 2 ^ q
  closed : i.closed = true ↔ m % 2 = 0

theorem surrounds_ofParts {m : Nat} {q : Int} {wide : Bool} (hm : 0 < m)
    (hwide : wide = true ↔ ¬(m = 2 ^ 52 ∧ q ≠ -1074)) : (Interval.ofParts m q wide).Surrounds m q := by
  have hscale : (2 : ℚ) ^ q = 2 ^ q.toNat / 2 ^ (-q).toNat := zpow_eq_div two_ne_zero q
  have hbelow : ((4 * m - (if wide = true then 2 else 1) : Nat) : ℚ) = 4 * (m - gapBelow m q) := by
    unfold gapBelow
    cases wide with
    | true =>
        rw [if_pos rfl, if_neg (hwide.mp rfl), Nat.cast_sub (by omega)]
        push_cast
        ring
    | false =>
        have hleast : m = 2 ^ 52 ∧ q ≠ -1074 := not_not.mp fun h => Bool.false_ne_true (hwide.mpr h)
        rw [if_neg Bool.false_ne_true, if_pos hleast, Nat.cast_sub (by omega)]
        push_cast
        ring
  unfold Interval.ofParts
  constructor
  · exact Nat.mul_pos (by decide) (Nat.pow_pos (by decide))
  · dsimp only
    rw [Nat.cast_mul, hbelow, hscale]
    push_cast [Nat.pow_eq]
    field_simp
  · dsimp only
    rw [hscale]
    push_cast [Nat.pow_eq]
    field_simp
  · dsimp only
    rw [hscale]
    push_cast [Nat.pow_eq]
    field_simp
    ring
  · exact beq_iff_eq

theorem toNat_unpackMantissa (b : BitVec binary64.numBits) : (unpackMantissa b).toNat = b.toNat % 2 ^ 52 :=
  BitVec.extractLsb'_toNat 0 52 b

theorem toNat_unpackExponent (b : BitVec binary64.numBits) :
    (unpackExponent b).toNat = b.toNat / 2 ^ 52 % 2 ^ 11 := by
  rw [← Nat.shiftRight_eq_div_pow]
  exact BitVec.extractLsb'_toNat 52 11 b

/-- The interval that is made for the bits of a double is the one around it. -/
theorem surrounds_ofBits {x : Float} {s : Sign} {m : Nat} {q : Int} {hm : 0 < m}
    (h : x.toModel.unpack = .finite s m q hm) : (Interval.ofBits (x.toBits.toNat % Word.half)).Surrounds m q := by
  have hcanonical := canonical_of_unpack (b := x.toModel.toBits.toBitVec) h
  obtain ⟨-, hfirst, hsecond⟩ := fields_of_finite (b := x.toModel.toBits.toBitVec) h
  rw [toNat_unpackExponent] at hfirst
  rw [toNat_unpackMantissa] at hsecond
  have hbits : x.toModel.toBits.toBitVec.toNat = x.toBits.toNat := rfl
  rw [hbits] at hfirst hsecond
  generalize x.toBits.toNat = bits at hfirst hsecond ⊢
  have hpow : Nat.pow 2 52 = 2 ^ 52 ∧ Nat.pow 2 11 = 2 ^ 11 ∧ Word.half = 2 ^ 63 := ⟨rfl, rfl, rfl⟩
  have hlow : bits % 2 ^ 63 % 2 ^ 52 = bits % 2 ^ 52 := by omega
  have hmiddle : bits % 2 ^ 63 / 2 ^ 52 % 2 ^ 11 = bits / 2 ^ 52 % 2 ^ 11 := by omega
  unfold Interval.ofBits
  rw [hpow.1, hpow.2.1, hpow.2.2]
  dsimp only
  rw [hlow, hmiddle]
  have hdigits := hcanonical.digits
  have hfull := hcanonical.full
  split_ifs at hfirst hsecond with hsmall
  · obtain rfl : q = -1074 := hfull.resolve_left (by omega)
    rw [if_pos (by omega), hsecond]
    exact surrounds_ofParts hm (by simp)
  · have hleast := hcanonical.least
    rw [if_neg (by omega)]
    have hm' : 2 ^ 52 + bits % 2 ^ 52 = m := by omega
    have hq : ((bits / 2 ^ 52 % 2 ^ 11 : Nat) : Int) - 1075 = q := by omega
    rw [hm', hq]
    refine surrounds_ofParts hm ?_
    rw [Bool.or_eq_true, bne_iff_ne, beq_iff_eq]
    omega

namespace Interval.Surrounds

variable {i : Interval} {m : Nat} {q : Int}

/-- The interval holds the numbers that are near the double. -/
theorem holds_iff_near (h : i.Surrounds m q) {p d : Nat} (hd : 0 < d) : i.holds p d = true ↔ Near (p / d) m q := by
  have hd : (0 : ℚ) < d := by exact_mod_cast hd
  have hden : (0 : ℚ) < i.den := by exact_mod_cast h.den
  have hless : ∀ {a : Nat}, (a / i.den : ℚ) < p / d ↔ a * d < p * i.den := by
    intro a
    rw [div_lt_div_iff₀ hden hd]
    exact_mod_cast Iff.rfl
  have hmore : ∀ {a : Nat}, (p / d : ℚ) < a / i.den ↔ p * i.den < a * d := by
    intro a
    rw [div_lt_div_iff₀ hd hden]
    exact_mod_cast Iff.rfl
  have hlow : (i.low / i.den : ℚ) = p / d ↔ i.low * d = p * i.den := by
    rw [div_eq_div_iff hden.ne' hd.ne']
    exact_mod_cast Iff.rfl
  have hhigh : (p / d : ℚ) = i.high / i.den ↔ p * i.den = i.high * d := by
    rw [div_eq_div_iff hd.ne' hden.ne']
    exact_mod_cast Iff.rfl
  have hnear : Near (p / d) m q ↔ (i.low * d < p * i.den ∨ (i.low * d = p * i.den ∧ i.closed = true)) ∧
      (p * i.den < i.high * d ∨ (p * i.den = i.high * d ∧ i.closed = true)) := by
    rw [← hless, ← hmore, ← hlow, ← hhigh, h.low, h.high, h.closed]
    exact ⟨fun hnear => ⟨hnear.low, hnear.high⟩, fun hnear => ⟨hnear.1, hnear.2⟩⟩
  rw [hnear]
  unfold Interval.holds
  cases i.closed with
  | true =>
      simp
      omega
  | false => simp

/-- The double lies between two neighbours on each decimal grid. -/
theorem between_neighbours (h : i.Surrounds m q) (step : Int) {floor : Nat}
    (hfloor : i.value * 10 ^ (-step).toNat / (i.den * 10 ^ step.toNat) = floor) :
    (floor : ℚ) * 10 ^ step ≤ m * 2 ^ q ∧ (m : ℚ) * 2 ^ q < (floor + 1) * 10 ^ step := by
  have hden : 0 < i.den * 10 ^ step.toNat := Nat.mul_pos h.den (Nat.pow_pos (by decide))
  have hstep : (0 : ℚ) < 10 ^ step := zpow_pos (by norm_num) step
  have hvalue : ((i.value * 10 ^ (-step).toNat : Nat) : ℚ) / (i.den * 10 ^ step.toNat : Nat) * 10 ^ step =
      m * 2 ^ q := by
    rw [← h.value, zpow_eq_div (by norm_num : (10 : ℚ) ≠ 0) step]
    push_cast
    field_simp
  have hlow : (floor : ℚ) ≤ ((i.value * 10 ^ (-step).toNat : Nat) : ℚ) / (i.den * 10 ^ step.toNat : Nat) := by
    rw [← hfloor, ← Nat.floor_div_eq_div (K := ℚ)]
    exact Nat.floor_le (by positivity)
  have hhigh : ((i.value * 10 ^ (-step).toNat : Nat) : ℚ) / (i.den * 10 ^ step.toNat : Nat) < floor + 1 := by
    rw [← hfloor, ← Nat.floor_div_eq_div (K := ℚ)]
    exact Nat.lt_floor_add_one _
  rw [← hvalue]
  exact ⟨mul_le_mul_of_nonneg_right hlow hstep.le, mul_lt_mul_of_pos_right hhigh hstep⟩

end Interval.Surrounds

/-! ## Digits -/

/-- A number between two neighbouring powers of ten has one digit more than the lower one has zeros. -/
theorem length_toDigits_of_bounds {n count : Nat} (hlow : 10 ^ count ≤ n) (hhigh : n < 10 ^ (count + 1)) :
    (Nat.toDigits 10 n).length = count + 1 := by
  refine le_antisymm ((Nat.length_toDigits_le_iff (by decide) (Nat.succ_pos count)).mpr hhigh) ?_
  rcases Nat.eq_zero_or_pos count with rfl | hcount
  · exact Nat.length_toDigits_pos
  · by_contra hshort
    have hless := (Nat.length_toDigits_le_iff (by decide) hcount).mp (by omega : (Nat.toDigits 10 n).length ≤ count)
    omega

/-- A number with so many digits lies between two neighbouring powers of ten. -/
theorem bounds_of_length_toDigits {n count : Nat} (hn : 0 < n) (hcount : (Nat.toDigits 10 n).length = count + 1) :
    10 ^ count ≤ n ∧ n < 10 ^ (count + 1) := by
  refine ⟨?_, (Nat.length_toDigits_le_iff (by decide) (Nat.succ_pos count)).mp hcount.le⟩
  rcases Nat.eq_zero_or_pos count with rfl | hpositive
  · exact hn
  · by_contra hless
    have hshort := (Nat.length_toDigits_le_iff (by decide : 1 < 10) hpositive).mpr (not_le.mp hless)
    omega

theorem toRat_of_bounds {n count : Nat} (point : Int) (hlow : 10 ^ count ≤ n) (hhigh : n < 10 ^ (count + 1)) :
    (⟨n, point⟩ : Digits).toRat = n * 10 ^ (point - (count + 1 : Nat)) := by
  unfold Digits.toRat
  dsimp only
  rw [length_toDigits_of_bounds hlow hhigh]

/-- The neighbour above on the grid of `n` digits. -/
def nextDigits (k : Int) (n floor : Nat) : Digits := if floor + 1 = 10 ^ n then ⟨1, k + 1⟩ else ⟨floor + 1, k⟩

/-- The digits are those of one of the two neighbours, which the interval holds, and there are none only where it holds
neither. -/
theorem withDigits?_cases (tie : Tie) (i : Interval) (k : Int) (n : Nat) {floor : Nat}
    (hfloor : i.value * 10 ^ (-(k - n)).toNat / (i.den * 10 ^ (k - n).toNat) = floor) :
    (withDigits? tie i k n = some ⟨floor, k⟩ ∧ i.holds (floor * 10 ^ (k - n).toNat) (10 ^ (-(k - n)).toNat) = true) ∨
      (withDigits? tie i k n = some (nextDigits k n floor) ∧
        i.holds ((floor + 1) * 10 ^ (k - n).toNat) (10 ^ (-(k - n)).toNat) = true) ∨
      (withDigits? tie i k n = none ∧ i.holds (floor * 10 ^ (k - n).toNat) (10 ^ (-(k - n)).toNat) = false ∧
        i.holds ((floor + 1) * 10 ^ (k - n).toNat) (10 ^ (-(k - n)).toNat) = false) := by
  obtain ⟨nearer, heq⟩ : ∃ nearer : Bool, withDigits? tie i k n =
      if (i.holds (floor * 10 ^ (k - n).toNat) (10 ^ (-(k - n)).toNat) &&
          !(i.holds ((floor + 1) * 10 ^ (k - n).toNat) (10 ^ (-(k - n)).toNat) && nearer)) = true then some ⟨floor, k⟩
      else if i.holds ((floor + 1) * 10 ^ (k - n).toNat) (10 ^ (-(k - n)).toNat) = true then
        some (nextDigits k n floor)
      else none := by
    rw [← hfloor, nextDigits, apply_ite some]
    exact ⟨_, rfl⟩
  rw [heq]
  generalize i.holds (floor * 10 ^ (k - n).toNat) (10 ^ (-(k - n)).toNat) = below
  generalize i.holds ((floor + 1) * 10 ^ (k - n).toNat) (10 ^ (-(k - n)).toNat) = above
  cases below with
  | false =>
      cases above with
      | false => simp
      | true =>
          simp
  | true =>
      cases above with
      | false => simp
      | true =>
          cases nearer with
          | false => simp
          | true => simp

section Grid

variable {i : Interval} {m : Nat} {q k : Int} {count : Nat} (h : i.Surrounds m q)
  (hlow : (10 : ℚ) ^ (k - 1) ≤ m * 2 ^ q) (hhigh : (m : ℚ) * 2 ^ q < 10 ^ k)

include h

/-- A point of the grid is in the interval where it is near the double. -/
theorem holds_grid_iff (step : Int) (n : Nat) :
    i.holds (n * 10 ^ step.toNat) (10 ^ (-step).toNat) = true ↔ Near (n * 10 ^ step) m q := by
  rw [h.holds_iff_near (Nat.pow_pos (by decide)), zpow_eq_div (by norm_num : (10 : ℚ) ≠ 0) step, ← mul_div_assoc]
  push_cast
  rfl

include hlow hhigh

/-- On the grid of so many digits, the neighbour below has so many digits. -/
theorem floor_bounds {floor : Nat} (hfloor : i.value * 10 ^ (-(k - (count + 1 : Nat))).toNat /
      (i.den * 10 ^ (k - (count + 1 : Nat)).toNat) = floor) : 10 ^ count ≤ floor ∧ floor < 10 ^ (count + 1) := by
  obtain ⟨hbelow, habove⟩ := h.between_neighbours _ hfloor
  have hstep : (0 : ℚ) < 10 ^ (k - (count + 1 : Nat)) := zpow_pos (by norm_num) _
  have hfirst : (10 : ℚ) ^ (k - 1) = 10 ^ count * 10 ^ (k - (count + 1 : Nat)) := by
    rw [← zpow_natCast, ← zpow_add₀ (by norm_num)]
    congr 1
    push_cast
    ring
  have hlast : (10 : ℚ) ^ k = 10 ^ (count + 1) * 10 ^ (k - (count + 1 : Nat)) := by
    rw [← zpow_natCast, ← zpow_add₀ (by norm_num)]
    congr 1
    ring
  rw [hfirst] at hlow
  rw [hlast] at hhigh
  constructor
  · have hless : (10 ^ count : ℚ) < floor + 1 := lt_of_mul_lt_mul_right (hlow.trans_lt habove) hstep.le
    have hless : 10 ^ count < floor + 1 := by exact_mod_cast hless
    omega
  · have hless : (floor : ℚ) < 10 ^ (count + 1) := lt_of_mul_lt_mul_right (hbelow.trans_lt hhigh) hstep.le
    exact_mod_cast hless

/-- **What digits stand for is near the double.** -/
theorem near_of_withDigits? {tie : Tie} {d : Digits} (hd : withDigits? tie i k (count + 1) = some d) :
    Near d.toRat m q ∧ 0 < d.number ∧ (Nat.toDigits 10 d.number).length ≤ count + 1 ∧ k ≤ d.point := by
  obtain ⟨floor, hfloor⟩ : ∃ floor, i.value * 10 ^ (-(k - (count + 1 : Nat))).toNat /
      (i.den * 10 ^ (k - (count + 1 : Nat)).toNat) = floor := ⟨_, rfl⟩
  obtain ⟨hleast, hmost⟩ := floor_bounds h hlow hhigh hfloor
  have hpos : 0 < 10 ^ count := Nat.pow_pos (by decide)
  rcases withDigits?_cases tie i k (count + 1) hfloor with ⟨hdigits, hholds⟩ | ⟨hdigits, hholds⟩ | ⟨hdigits, -⟩
  · obtain rfl := Option.some.inj (hdigits.symm.trans hd)
    refine ⟨?_, hpos.trans_le hleast, (length_toDigits_of_bounds hleast hmost).le, le_refl k⟩
    rw [toRat_of_bounds k hleast hmost]
    exact (holds_grid_iff h _ floor).mp hholds
  · have hnear := (holds_grid_iff h _ (floor + 1)).mp hholds
    obtain rfl := Option.some.inj (hdigits.symm.trans hd)
    unfold nextDigits
    split
    · rename_i hpower
      have hone : (⟨1, k + 1⟩ : Digits).toRat = (floor + 1 : Nat) * 10 ^ (k - (count + 1 : Nat)) := by
        rw [toRat_of_bounds (k + 1) (by decide : 10 ^ 0 ≤ 1) (by decide), hpower, Nat.cast_pow, ← zpow_natCast,
          Nat.cast_one, one_mul]
        push_cast
        rw [← zpow_add₀ (by norm_num)]
        congr 1
        ring
      have hlength := length_toDigits_of_bounds (by decide : 10 ^ 0 ≤ 1) (by decide)
      exact ⟨hone ▸ hnear, Nat.one_pos, hlength.le.trans (by omega), by simp⟩
    · rename_i hpower
      have hless : floor + 1 < 10 ^ (count + 1) := lt_of_le_of_ne hmost hpower
      refine ⟨?_, by simp, (length_toDigits_of_bounds (by omega) hless).le, le_refl k⟩
      rw [toRat_of_bounds k (by omega) hless]
      exact hnear
  · rw [hdigits] at hd
    cases hd

omit hhigh in
/-- Seventeen digits are enough: were neither neighbour in the interval, it would be narrower than the grid. -/
theorem withDigits?_ne_none (tie : Tie) (hm : Canonical m q) : withDigits? tie i k 17 ≠ none := by
  intro hnone
  obtain ⟨floor, hfloor⟩ : ∃ floor, i.value * 10 ^ (-(k - (17 : Nat))).toNat /
      (i.den * 10 ^ (k - (17 : Nat)).toNat) = floor := ⟨_, rfl⟩
  obtain ⟨hbelow, habove⟩ := h.between_neighbours _ hfloor
  rcases withDigits?_cases tie i k 17 hfloor with ⟨hdigits, -⟩ | ⟨hdigits, -⟩ | ⟨-, hfirst, hsecond⟩
  · rw [hdigits] at hnone
    cases hnone
  · rw [hdigits] at hnone
    cases hnone
  have hq := zpow_pos_two q
  have hgap := gapBelow_le m q
  have hstep : (10 : ℚ) ^ (k - 1) = 10 ^ 16 * 10 ^ (k - (17 : Nat)) := by
    rw [← zpow_natCast, ← zpow_add₀ (by norm_num)]
    congr 1
    push_cast
    ring
  rw [hstep] at hlow
  have hfar : (floor : ℚ) * 10 ^ (k - (17 : Nat)) ≤ (m - gapBelow m q) * 2 ^ q := by
    by_contra hless
    refine Bool.eq_false_iff.mp hfirst ((holds_grid_iff h _ floor).mpr ⟨.inl (not_le.mp hless), .inl ?_⟩)
    exact hbelow.trans_lt (mul_lt_mul_of_pos_right (by linarith) hq)
  have hfar' : (m + 1 / 2) * 2 ^ q ≤ ((floor : ℚ) + 1) * 10 ^ (k - (17 : Nat)) := by
    by_contra hless
    refine Bool.eq_false_iff.mp hsecond ((holds_grid_iff h _ (floor + 1)).mpr ⟨.inl ?_, .inl ?_⟩)
    · have hgap' : 0 < gapBelow m q := by
        unfold gapBelow
        split <;> norm_num
      push_cast
      exact (mul_lt_mul_of_pos_right (by linarith) hq).trans habove
    · push_cast
      exact not_le.mp hless
  have hwide : (gapBelow m q + 1 / 2) * 10 ^ 16 * 2 ^ q ≤ m * 2 ^ q := by
    generalize (10 : ℚ) ^ (k - (17 : Nat)) = step at hlow hfar hfar'
    generalize (2 : ℚ) ^ q = scale at hlow hfar hfar' ⊢
    linarith
  have hwide : (gapBelow m q + 1 / 2) * 10 ^ 16 ≤ (m : ℚ) := le_of_mul_le_mul_right hwide hq
  have hdigits : (m : ℚ) < 2 ^ 53 := by exact_mod_cast hm.digits
  unfold gapBelow at hwide
  split at hwide
  · rename_i hleast
    rw [hleast.1] at hwide
    norm_num at hwide
  · linarith

end Grid

/-! ## The leading digit -/

/-- The digits before the point are those of the whole part. -/
theorem bounds_of_one_le {value den : Nat} (hden : 0 < den) (hlarge : den ≤ value) :
    (10 : ℚ) ^ (((Nat.toDigits 10 (value / den)).length : Int) - 1) ≤ value / den ∧
      (value / den : ℚ) < 10 ^ ((Nat.toDigits 10 (value / den)).length : Int) := by
  have hden' : (0 : ℚ) < den := by exact_mod_cast hden
  obtain ⟨count, hcount⟩ : ∃ count, (Nat.toDigits 10 (value / den)).length = count + 1 :=
    Nat.exists_eq_add_one.mpr Nat.length_toDigits_pos
  obtain ⟨hlow, hhigh⟩ := bounds_of_length_toDigits (Nat.div_pos hlarge hden) hcount
  have hlow' := (Nat.le_div_iff_mul_le hden).mp hlow
  have hhigh' := (Nat.div_lt_iff_lt_mul hden).mp hhigh
  have hexponent : ((count + 1 : Nat) : Int) - 1 = (count : Nat) := by
    push_cast
    ring
  rw [hcount, hexponent, zpow_natCast, zpow_natCast, le_div_iff₀ hden', div_lt_iff₀ hden']
  exact ⟨by exact_mod_cast hlow', by exact_mod_cast hhigh'⟩

/-- So many zeros stand behind the point at most. -/
theorem reaches_iff {value den : Nat} (hden : 0 < den) (j : Nat) :
    den ≤ value * Nat.pow 10 (j + 1) ↔ (10 : ℚ) ^ (-(j : Int) - 1) ≤ value / den := by
  have hden' : (0 : ℚ) < den := by exact_mod_cast hden
  have hexponent : -(j : Int) - 1 = -((j + 1 : Nat) : Int) := by
    push_cast
    ring
  rw [hexponent, zpow_neg, zpow_natCast, inv_eq_one_div, div_le_div_iff₀ (by positivity) hden', one_mul]
  exact_mod_cast Iff.rfl

/-- The zeros behind the point are found. -/
theorem find?_reaches_ne_none {value den : Nat} (hden : 0 < den) (hleast : (1 : ℚ) ≤ value / den * 10 ^ 400) :
    (List.range 400).find? (fun j => den ≤ value * Nat.pow 10 (j + 1)) ≠ none := by
  intro hnone
  have hall := List.find?_eq_none.mp hnone 399 (by simp)
  rw [decide_eq_true_iff] at hall
  have hless := mt (reaches_iff hden 399).mpr hall
  rw [not_le, ← mul_lt_mul_iff_of_pos_right (by positivity : (0 : ℚ) < 10 ^ 400)] at hless
  have hone : (10 : ℚ) ^ (-((399 : Nat) : Int) - 1) * 10 ^ 400 = 1 := by
    rw [← zpow_natCast, ← zpow_add₀ (by norm_num)]
    norm_num
  rw [hone] at hless
  exact absurd hless (not_lt.mpr hleast)

/-- The zeros that are found are all that stand behind the point. -/
theorem bounds_of_find? {value den j : Nat} (hden : 0 < den) (hsmall : value < den)
    (hfound : (List.range 400).find? (fun j => den ≤ value * Nat.pow 10 (j + 1)) = some j) :
    (10 : ℚ) ^ (-(j : Int) - 1) ≤ value / den ∧ (value / den : ℚ) < 10 ^ (-(j : Int)) := by
  have hden' : (0 : ℚ) < den := by exact_mod_cast hden
  obtain ⟨hj, -, hbefore⟩ := List.find?_range_eq_some.mp hfound
  rw [decide_eq_true_iff] at hj
  refine ⟨(reaches_iff hden j).mp hj, ?_⟩
  cases j with
  | zero =>
      have hone : (value / den : ℚ) < 1 := (div_lt_one hden').mpr (by exact_mod_cast hsmall)
      simpa using hone
  | succ j =>
      have hmissed : ¬ den ≤ value * Nat.pow 10 (j + 1) := by simpa using hbefore j (Nat.lt_succ_self j)
      have hless := not_le.mp (mt (reaches_iff hden j).mpr hmissed)
      have hexponent : -((j + 1 : Nat) : Int) = -(j : Int) - 1 := by
        push_cast
        ring
      rwa [hexponent]

/-- The place of the leading digit. -/
theorem magnitude_spec {value den : Nat} (hden : 0 < den) (hleast : (1 : ℚ) ≤ value / den * 10 ^ 400) :
    (10 : ℚ) ^ (magnitude value den - 1) ≤ value / den ∧ (value / den : ℚ) < 10 ^ magnitude value den := by
  unfold magnitude
  split
  · rename_i hlarge
    exact bounds_of_one_le hden hlarge
  · rename_i hsmall
    cases hfound : (List.range 400).find? (fun j => den ≤ value * Nat.pow 10 (j + 1)) with
    | none => exact absurd hfound (find?_reaches_ne_none hden hleast)
    | some j => exact bounds_of_find? hden (not_le.mp hsmall) hfound

/-- The least double has no leading digit before this place. -/
theorem lt_least_double : (10 : ℚ) ^ (-327 : Int) < 2 ^ (-1074 : Int) := by
  have hpowers : (2 : ℚ) ^ (1074 : Nat) < 10 ^ (327 : Nat) := by
    exact_mod_cast (by decide +kernel : 2 ^ 1074 < 10 ^ 327)
  rw [zpow_neg, zpow_neg, inv_lt_inv₀ (by positivity) (by positivity)]
  exact_mod_cast hpowers

/-- **Digits are found**, no more than seventeen, and what they stand for is near the double. -/
theorem shortest_spec (tie : Tie) {i : Interval} {m : Nat} {q : Int} (h : i.Surrounds m q) (hm : Canonical m q) :
    Near (i.shortest tie).toRat m q ∧ 0 < (i.shortest tie).number ∧
      (Nat.toDigits 10 (i.shortest tie).number).length ≤ 17 ∧ -327 < (i.shortest tie).point := by
  have hq := zpow_pos_two q
  have hleast : (2 : ℚ) ^ (-1074 : Int) ≤ m * 2 ^ q :=
    calc (2 : ℚ) ^ (-1074 : Int)
      _ ≤ 2 ^ q := zpow_le_zpow_right₀ one_le_two hm.least
      _ ≤ m * 2 ^ q := le_mul_of_one_le_left hq.le (by exact_mod_cast hm.pos)
  have hbound : (1 : ℚ) ≤ i.value / i.den * 10 ^ 400 := by
    rw [h.value]
    calc (1 : ℚ)
      _ ≤ 10 ^ (-327 : Int) * 10 ^ 400 := by
        rw [← zpow_natCast, ← zpow_add₀ (by norm_num)]
        exact one_le_zpow₀ (by norm_num) (by norm_num)
      _ ≤ m * 2 ^ q * 10 ^ 400 := mul_le_mul_of_nonneg_right (lt_least_double.le.trans hleast) (by positivity)
  obtain ⟨hlow, hhigh⟩ := magnitude_spec h.den hbound
  rw [h.value] at hlow hhigh
  have hplace : -327 < magnitude i.value i.den := by
    have hpowers := (lt_least_double.trans_le hleast).trans hhigh
    exact (zpow_lt_zpow_iff_right₀ (by norm_num)).mp hpowers
  unfold Interval.shortest
  dsimp only
  cases hfound : (List.range 17).findSome? (fun n => withDigits? tie i (magnitude i.value i.den) (n + 1)) with
  | none =>
      have hnone := List.findSome?_eq_none_iff.mp hfound 16 (List.mem_range.mpr (by decide))
      exact absurd hnone (withDigits?_ne_none h hlow tie hm)
  | some d =>
      obtain ⟨count, hcount, hd⟩ := List.exists_of_findSome?_eq_some hfound
      obtain ⟨hnear, hpos, hlength, hpoint⟩ := near_of_withDigits? h hlow hhigh hd
      have hcount : count < 17 := List.mem_range.mp hcount
      exact ⟨hnear, hpos, hlength.trans hcount, hplace.trans_le hpoint⟩

end SearchLab.Decimal
