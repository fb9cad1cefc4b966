import SearchLab.Proofs.Double.Rounding

/-!
# Counting with doubles

Up to `2^53` every count is a double of its own: the counts are in order, and one more is the next double. At `2^53` the
counting ends, since the double that is nearest to one more is the same.

* `IsExactly.compare_eq` — doubles with all digits of a mantissa are compared as their numbers are;
* `ofNat_lt_ofNat_iff` — counts are in order;
* `ofNat_add_one`, `ofNat_add_one_last` — one more;
* `toNat_toUInt64_ofNat` — a count is the word of its double.
-/

namespace SearchLab.Double

open Float.Model Float.Model.UnpackedFloat Float.Model.Format

theorem lt_iff {x y : Float} : x < y ↔ x.toModel.unpack.compare y.toModel.unpack = some .lt := by
  have hmodel : x < y ↔ decide (x.toModel < y.toModel) = true := Iff.rfl
  rw [hmodel, decide_eq_true_iff]
  exact beq_iff_eq

theorem le_iff {x y : Float} : x ≤ y ↔ (x.toModel.unpack.compare y.toModel.unpack).any (·.isLE) = true := by
  have hmodel : x ≤ y ↔ decide (x.toModel ≤ y.toModel) = true := Iff.rfl
  rw [hmodel, decide_eq_true_iff]
  exact Iff.rfl

/-! ## Sums -/

theorem add_of_near {m₁ m₂ m : Nat} {e₁ e₂ q : Int} {x : ℚ} (h₁ : 0 < m₁) (h₂ : 0 < m₂)
    (hvalue : (m₁ : ℚ) * 2 ^ e₁ + m₂ * 2 ^ e₂ = x) (hm : Canonical m q) (hx : Near x m q) :
    UnpackedFloat.add binary64 (.finite .positive m₁ e₁ h₁) (.finite .positive m₂ e₂ h₂) =
      .finite .positive m q hm.pos := by
  -- Both mantissas are moved to the lower exponent, where their sum is exact.
  have hmoved : ∀ (k : Nat) (e : Int), min e₁ e₂ ≤ e →
      (k : ℚ) * 2 ^ e = (k <<< (e - min e₁ e₂).toNat : Nat) * 2 ^ min e₁ e₂ := by
    intro k e he
    have hexponent : e = ((e - min e₁ e₂).toNat : Int) + min e₁ e₂ := by omega
    conv_lhs => rw [hexponent, zpow_add₀ two_ne_zero, zpow_natCast]
    rw [Nat.shiftLeft_eq]
    push_cast
    ring
  generalize hn : m₁ <<< (e₁ - min e₁ e₂).toNat + m₂ <<< (e₂ - min e₁ e₂).toNat = n
  have hpos : 0 < n := by
    rw [← hn, Nat.shiftLeft_eq]
    exact Nat.add_pos_left (Nat.mul_pos h₁ (Nat.two_pow_pos _)) _
  have hsum : (n : ℚ) * 2 ^ min e₁ e₂ = x := by
    rw [← hvalue, hmoved m₁ e₁ (min_le_left _ _), hmoved m₂ e₂ (min_le_right _ _), ← add_mul, ← hn, Nat.cast_add]
  have hadd : UnpackedFloat.add binary64 (.finite .positive m₁ e₁ h₁) (.finite .positive m₂ e₂ h₂) =
      UnpackedFloat.normalize binary64 n (min e₁ e₂) .positive := by
    rw [← hn, Nat.cast_add]
    rfl
  have hsign : compare (n : Int) 0 = .gt := Int.compare_eq_gt.mpr (by omega)
  rw [hadd, UnpackedFloat.normalize, hsign]
  exact round_of_near .positive hpos hsum hm hx

variable {x y : Float} {v w : ℚ} {m : Nat} {q : Int}

/-- A sum of doubles is the double that the sum of their numbers is near. -/
theorem IsExactly.add (hx : IsExactly x v) (hy : IsExactly y w) (hm : Canonical m q) (h : Near (v + w) m q) :
    (x + y).toModel.unpack = .finite .positive m q hm.pos := by
  obtain ⟨m₁, e₁, h₁, hunpack₁, rfl, -⟩ := hx
  obtain ⟨m₂, e₂, h₂, hunpack₂, rfl, -⟩ := hy
  have hmodel : (x + y).toModel.unpack = UnpackedFloat.unpack binary64 (UnpackedFloat.pack binary64
      (UnpackedFloat.add binary64 x.toModel.unpack y.toModel.unpack)) := rfl
  rw [hmodel, hunpack₁, hunpack₂, add_of_near h₁ h₂ rfl hm h]
  exact unpack_pack_finite .positive hm

/-! ## The order -/

/-- Of two doubles with all digits of a mantissa, the one with the lower exponent is the lower one. -/
theorem mul_zpow_lt_of_lt {m₁ m₂ : Nat} {e₁ e₂ : Int} (hdigits : m₁ < 2 ^ 53) (hfull : 2 ^ 52 ≤ m₂) (h : e₁ < e₂) :
    (m₁ : ℚ) * 2 ^ e₁ < m₂ * 2 ^ e₂ := by
  have hsucc : (2 : ℚ) * 2 ^ e₁ ≤ 2 ^ e₂ := by
    rw [mul_comm, ← zpow_add_one₀ two_ne_zero]
    exact zpow_le_zpow_right₀ one_le_two (by omega)
  have hdigits : (m₁ : ℚ) < 2 * 2 ^ 52 := by exact_mod_cast hdigits
  have hfull : (2 : ℚ) ^ 52 ≤ m₂ := by exact_mod_cast hfull
  calc (m₁ : ℚ) * 2 ^ e₁
    _ < 2 * 2 ^ 52 * 2 ^ e₁ := mul_lt_mul_of_pos_right hdigits (zpow_pos_two e₁)
    _ = 2 ^ 52 * (2 * 2 ^ e₁) := by ring
    _ ≤ m₂ * 2 ^ e₂ := mul_le_mul hfull hsucc (by positivity) (by positivity)

theorem compare_map {α β : Type} [LinearOrder α] [LinearOrder β] {f : α → β} (hf : StrictMono f) (a b : α) :
    compare (f a) (f b) = compare a b := by
  rw [← cmp_eq_compare, ← cmp_eq_compare, hf.cmp_map_eq]

/-- Doubles with all digits of a mantissa are compared as their numbers are. -/
theorem IsExactly.compare_eq (hx : IsExactly x v) (hy : IsExactly y w) :
    x.toModel.unpack.compare y.toModel.unpack = some (compare v w) := by
  obtain ⟨m₁, e₁, h₁, hunpack₁, rfl, hfull₁⟩ := hx
  obtain ⟨m₂, e₂, h₂, hunpack₂, rfl, hfull₂⟩ := hy
  have hdigits₁ := (canonical_of_unpack hunpack₁).digits
  have hdigits₂ := (canonical_of_unpack hunpack₂).digits
  have hcompare : x.toModel.unpack.compare y.toModel.unpack = some ((compare e₁ e₂).then (compare m₁ m₂)) := by
    rw [hunpack₁, hunpack₂]
    rfl
  rw [hcompare]
  rcases lt_trichotomy e₁ e₂ with hless | rfl | hmore
  · rw [compare_lt_iff_lt.mpr hless, compare_lt_iff_lt.mpr (mul_zpow_lt_of_lt hdigits₁ hfull₂ hless)]
    rfl
  · have hmono : StrictMono fun m : Nat => (m : ℚ) * 2 ^ e₁ := fun a b hless =>
      mul_lt_mul_of_pos_right (by exact_mod_cast hless) (zpow_pos_two e₁)
    rw [compare_eq_iff_eq.mpr rfl, Ordering.eq_then, compare_map hmono]
  · rw [compare_gt_iff_gt.mpr hmore, compare_gt_iff_gt.mpr (mul_zpow_lt_of_lt hdigits₂ hfull₁ hmore)]
    rfl

/-! ## Counts -/

/-- A count up to `2^53` is a double. -/
theorem isExactly_ofNat {n : Nat} (hpos : 0 < n) (hmost : n ≤ 2 ^ 53) : IsExactly (Float.ofNat n) n := by
  rcases hmost.lt_or_eq with hsmall | rfl
  · obtain ⟨hm, hvalue, hfull⟩ := canonical_shift (k := 0) hpos hsmall (by decide) (by decide)
    rw [zpow_zero, mul_one] at hvalue
    exact ⟨_, _, hm.pos, unpack_ofNat hpos hm (hvalue ▸ near_self _ _), hvalue, hfull⟩
  · have hm : Canonical (2 ^ 52) 1 := ⟨by decide, by decide, by decide, by decide, .inl le_rfl⟩
    have hvalue : ((2 ^ 52 : Nat) : ℚ) * 2 ^ (1 : Int) = (2 ^ 53 : Nat) := by norm_num
    exact ⟨_, _, hm.pos, unpack_ofNat hpos hm (hvalue ▸ near_self _ _), hvalue, le_rfl⟩

theorem unpack_ofNat_zero : (Float.ofNat 0).toModel.unpack = .zero .positive := by
  have hzero : Float.ofNat 0 = 0.0 := by decide +kernel
  rw [hzero, unpack_zero]

/-- Counts are compared as doubles as they are as numbers. -/
theorem compare_ofNat {a b : Nat} (ha : a ≤ 2 ^ 53) (hb : b ≤ 2 ^ 53) :
    (Float.ofNat a).toModel.unpack.compare (Float.ofNat b).toModel.unpack = some (compare a b) := by
  have hpositive : ∀ {n : Nat}, 0 < n → n ≤ 2 ^ 53 → ∃ m q hm,
      (Float.ofNat n).toModel.unpack = .finite .positive m q hm := fun hpos hmost => by
    obtain ⟨m, q, hm, hunpack, -⟩ := isExactly_ofNat hpos hmost
    exact ⟨m, q, hm, hunpack⟩
  rcases Nat.eq_zero_or_pos a with rfl | hapos <;> rcases Nat.eq_zero_or_pos b with rfl | hbpos
  · rw [unpack_ofNat_zero]
    rfl
  · obtain ⟨m, q, hm, hunpack⟩ := hpositive hbpos hb
    rw [unpack_ofNat_zero, hunpack, Nat.compare_eq_lt.mpr hbpos]
    rfl
  · obtain ⟨m, q, hm, hunpack⟩ := hpositive hapos ha
    rw [unpack_ofNat_zero, hunpack, Nat.compare_eq_gt.mpr hapos]
    rfl
  · rw [(isExactly_ofNat hapos ha).compare_eq (isExactly_ofNat hbpos hb), compare_map Nat.strictMono_cast]

/-- Counts are in order. -/
theorem ofNat_lt_ofNat_iff {a b : Nat} (ha : a ≤ 2 ^ 53) (hb : b ≤ 2 ^ 53) : Float.ofNat a < Float.ofNat b ↔ a < b := by
  rw [lt_iff, compare_ofNat ha hb, Option.some.injEq]
  exact Nat.compare_eq_lt

theorem ofNat_le_ofNat {a b : Nat} (hb : b ≤ 2 ^ 53) (h : a ≤ b) : Float.ofNat a ≤ Float.ofNat b := by
  rw [le_iff, compare_ofNat (h.trans hb) hb, Option.any_some]
  exact Nat.isLE_compare.mpr h

theorem isFinite_ofNat {n : Nat} (h : n ≤ 2 ^ 53) : (Float.ofNat n).isFinite = true := by
  have hmodel : (Float.ofNat n).isFinite = (Float.ofNat n).toModel.unpack.isFinite := rfl
  rw [hmodel]
  rcases Nat.eq_zero_or_pos n with rfl | hpos
  · rw [unpack_ofNat_zero]
    rfl
  · obtain ⟨m, q, hm, hunpack, -⟩ := isExactly_ofNat hpos h
    rw [hunpack]
    rfl

theorem isNaN_ofNat {n : Nat} (hpos : 0 < n) (h : n ≤ 2 ^ 53) : (Float.ofNat n).isNaN = false := by
  obtain ⟨m, q, hm, hunpack, -⟩ := isExactly_ofNat hpos h
  have hmodel : (Float.ofNat n).isNaN = (Float.ofNat n).toModel.unpack.isNaN := rfl
  rw [hmodel, hunpack]
  rfl

/-- What is finite is below what is above all numbers, and not the other way around. -/
theorem lt_infinity_of_isFinite {x : Float} (h : x.isFinite = true) : x < 1.0 / 0.0 ∧ ¬ 1.0 / 0.0 < x := by
  have hmodel : x.isFinite = x.toModel.unpack.isFinite := rfl
  have hinfinity : (1.0 / 0.0 : Float).toModel.unpack = .infinity .positive := rfl
  rw [hmodel] at h
  rw [lt_iff, lt_iff, hinfinity]
  cases hx : x.toModel.unpack with
  | notANumber =>
      rw [hx] at h
      cases h
  | infinity s =>
      rw [hx] at h
      cases h
  | zero s => exact ⟨rfl, fun hless => by cases hless⟩
  | finite s m e hm =>
      cases s <;> exact ⟨rfl, fun hless => by cases hless⟩

/-- One more is the next double. -/
theorem ofNat_add_one {n : Nat} (h : n < 2 ^ 53) : Float.ofNat n + Float.ofNat 1 = Float.ofNat (n + 1) := by
  rcases Nat.eq_zero_or_pos n with rfl | hpos
  · decide +kernel
  · obtain ⟨m, q, _, hnext, hvalue, _⟩ := isExactly_ofNat (Nat.succ_pos n) h
    have hm := canonical_of_unpack hnext
    have hone : IsExactly (Float.ofNat 1) (1 : Nat) := isExactly_ofNat one_pos (by decide)
    have hsum := (isExactly_ofNat hpos h.le).add hone hm (by
      rw [← Nat.cast_add, ← hvalue]
      exact near_self m q)
    exact eq_of_unpack (hsum.trans hnext.symm) fun hnone => by cases hsum.symm.trans hnone

/-- The last count, which one more does not change. -/
theorem ofNat_add_one_last : Float.ofNat (2 ^ 53) + Float.ofNat 1 = Float.ofNat (2 ^ 53) := by
  decide +kernel

/-! ## Counts as words -/

/-- Digits that locate a natural number are its digits. -/
theorem Locates.mantissa_eq {em : ExtendedMantissa} {n : Nat} (h : Locates em n) : em.mantissa = n := by
  obtain ⟨hlow, hhigh⟩ := h.bounds
  have hle : em.mantissa ≤ n := Nat.cast_le.mp hlow
  have hlt : n < em.mantissa + 1 := by exact_mod_cast hhigh
  exact Nat.le_antisymm hle (Nat.le_of_lt_succ hlt)

/-- A natural number that a double holds is what the double is rounded to. -/
theorem roundToInt_of_value {m n : Nat} {q : Int} (h : (m : ℚ) * 2 ^ q = n) : roundToInt .positive m q = n := by
  -- No digit is missing in front of the point, and those behind it are dropped.
  have hwhole : ((m <<< (q - 0).toNat : Nat) : ℚ) / 2 ^ (0 - (q - (q - 0).toNat)).toNat = n := by
    rw [← h, Nat.shiftLeft_eq]
    push_cast
    rcases le_or_gt 0 q with hq | hq
    · obtain ⟨k, rfl⟩ := Int.eq_ofNat_of_zero_le hq
      simp
    · obtain ⟨k, rfl⟩ := Int.eq_negSucc_of_lt_zero hq
      simp [zpow_negSucc, div_eq_mul_inv]
  have hlocates := (locates_exact (m <<< (q - 0).toNat)).shiftRight (0 - (q - (q - 0).toNat)).toNat
  rw [hwhole] at hlocates
  exact congrArg Nat.cast hlocates.mantissa_eq

/-- A number below `2^64` that a double holds is the word of the double. -/
theorem IsExactly.toNat_toUInt64 {x : Float} {n : Nat} (h : IsExactly x n) (hn : n < UInt64.size) :
    x.toUInt64.toNat = n := by
  obtain ⟨m, q, hm, hunpack, hvalue, -⟩ := h
  have hmodel : x.toUInt64 = UInt64.ofNatClamp (toInt 0 (UInt64.size - 1) x.toModel.unpack).toNat := rfl
  have hint : toInt 0 (UInt64.size - 1) x.toModel.unpack = n := by
    rw [hunpack]
    exact roundToInt_of_value hvalue
  rw [hmodel, hint, Int.toNat_natCast, UInt64.ofNatClamp, dif_pos hn]
  rfl

/-- A count up to `2^53` is the word of its double. -/
theorem toNat_toUInt64_ofNat {n : Nat} (h : n ≤ 2 ^ 53) : (Float.ofNat n).toUInt64.toNat = n := by
  rcases Nat.eq_zero_or_pos n with rfl | hpos
  · decide +kernel
  · exact (isExactly_ofNat hpos h).toNat_toUInt64 (h.trans_lt (by decide))

end SearchLab.Double
