import SearchLab.Proofs.Decimal
import SearchLab.Proofs.Decimal.Shortest

/-!
# Numbers that are read again

With the point in place, the digits that were found for a double stand on a line as they are, with zeros before or
behind them. What is read there is the decimal that the digits stand for, and the double that this decimal is near is
the one that was written.

* `unsigned?_plain` — digits with the point in place;
* `number?_write` — any finite double.
-/

namespace SearchLab.Decimal

open Double
open Float.Model Float.Model.UnpackedFloat Float.Model.Format

/-! ## Digits and a point -/

theorem numberOf_append (start : Nat) (ds fs : List Char) :
    numberOf start (ds ++ fs) = numberOf (numberOf start ds) fs :=
  List.foldl_append

theorem numberOf_zeros (start n : Nat) : numberOf start (List.replicate n '0') = start * 10 ^ n := by
  have hzeros : Nat.ofDigitChars 10 (List.replicate n '0') start = 10 ^ n * start := Nat.ofDigitChars_replicate_zero
  exact hzeros.trans (Nat.mul_comm _ _)

theorem numberOf_toDigits (n : Nat) : numberOf 0 (Nat.toDigits 10 n) = n := Nat.ofDigitChars_ten_toDigits

theorem takeWhile_digits {ds : List Char} (hds : ∀ c ∈ ds, c.isDigit = true) (behind : List Char)
    (hbehind : ∀ c ∈ behind.head?, c.isDigit = false) :
    (ds ++ behind).takeWhile Char.isDigit = ds ∧ (ds ++ behind).dropWhile Char.isDigit = behind := by
  rw [List.takeWhile_append_of_pos hds, List.dropWhile_append_of_pos hds]
  cases behind with
  | nil => simp
  | cons c rest =>
      have hc := hbehind c rfl
      simp [hc]

section Unsigned

variable {ds fs : List Char} (hne : ds ≠ []) (hds : ∀ c ∈ ds, c.isDigit = true)

include hne hds

/-- A whole number. -/
theorem unsigned?_whole : unsigned? ds = some (nearest (numberOf 0 ds) 0) := by
  obtain ⟨htake, hdrop⟩ := takeWhile_digits hds [] (by simp)
  rw [List.append_nil] at htake hdrop
  unfold unsigned?
  simp [htake, hdrop, hne, exponent?, numberOf]

/-- Digits before and behind a point. -/
theorem unsigned?_point (hfs : ∀ c ∈ fs, c.isDigit = true) :
    unsigned? (ds ++ '.' :: fs) = some (nearest (numberOf 0 (ds ++ fs)) (-(fs.length : Int))) := by
  obtain ⟨htake, hdrop⟩ := takeWhile_digits hds ('.' :: fs) (by simp)
  obtain ⟨htake', hdrop'⟩ := takeWhile_digits hfs [] (by simp)
  rw [List.append_nil] at htake' hdrop'
  unfold unsigned?
  simp [htake, hdrop, htake', hdrop', hne, exponent?, numberOf_append]

end Unsigned

/-- **Digits with the point in place** are read as the decimal that they stand for: as a whole number, or as the digits
themselves with an exponent. -/
theorem unsigned?_plain (d : Digits) :
    ∃ n e, unsigned? (plainLayout.plain (Nat.toDigits 10 d.number) d.point) = some (nearest n e) ∧
      (n : ℚ) * 10 ^ e = d.toRat ∧
      (e = 0 ∨ (n = d.number ∧ e = d.point - (Nat.toDigits 10 d.number).length ∧ e < 0)) := by
  obtain ⟨number, point⟩ := d
  have hdigits : ∀ c ∈ Nat.toDigits 10 number, c.isDigit = true := fun c hc => isDigit_of_mem_toDigits hc
  have hnumber := numberOf_toDigits number
  have hne : Nat.toDigits 10 number ≠ [] := Nat.toDigits_ne_nil
  have hpos : 0 < (Nat.toDigits 10 number).length := Nat.length_toDigits_pos
  have hzeros : ∀ n, ∀ c ∈ List.replicate n '0', c.isDigit = true := fun n c hc =>
    List.eq_of_mem_replicate hc ▸ (by decide)
  unfold Digits.toRat Layout.plain plainLayout
  dsimp only
  generalize Nat.toDigits 10 number = ds at *
  split
  · rename_i hwhole
    refine ⟨number * 10 ^ (point - ds.length).toNat, 0, ?_, ?_, .inl rfl⟩
    · rw [if_neg Bool.false_ne_true, List.append_nil, unsigned?_whole (by simp [hne]) fun c hc => ?_,
        numberOf_append, hnumber, numberOf_zeros]
      rcases List.mem_append.mp hc with hc | hc
      · exact hdigits c hc
      · exact hzeros _ c hc
    · have hexponent : point - ds.length = ((point - ds.length).toNat : Int) := by omega
      rw [hexponent, zpow_natCast, Int.toNat_natCast]
      push_cast
      ring
  split
  · rename_i hwhole hpoint
    refine ⟨number, point - ds.length, ?_, rfl, .inr ⟨rfl, rfl, by omega⟩⟩
    have hlength : -((ds.drop point.toNat).length : Int) = point - ds.length := by
      rw [List.length_drop]
      omega
    have hfirst : ds.take point.toNat ≠ [] := by
      rw [Ne, List.take_eq_nil_iff]
      exact not_or.mpr ⟨by omega, hne⟩
    rw [unsigned?_point hfirst (fun c hc => hdigits c (List.mem_of_mem_take hc))
      fun c hc => hdigits c (List.mem_of_mem_drop hc), List.take_append_drop, hnumber, hlength]
  · rename_i hwhole hpoint
    refine ⟨number, point - ds.length, ?_, rfl, .inr ⟨rfl, rfl, by omega⟩⟩
    have hlength : -((List.replicate (-point).toNat '0' ++ ds).length : Int) = point - ds.length := by
      rw [List.length_append, List.length_replicate]
      omega
    have hvalue : numberOf 0 (['0'] ++ (List.replicate (-point).toNat '0' ++ ds)) = number := by
      rw [numberOf_append, numberOf_append, numberOf_zeros]
      simpa [numberOf] using hnumber
    have hshape : '0' :: '.' :: List.replicate (-point).toNat '0' ++ ds =
        ['0'] ++ '.' :: (List.replicate (-point).toNat '0' ++ ds) := rfl
    have hzero : ∀ c ∈ ['0'], c.isDigit = true := fun c hc => List.mem_singleton.mp hc ▸ (by decide)
    rw [hshape, unsigned?_point (by simp) hzero fun c hc => ?_, hvalue, hlength]
    rcases List.mem_append.mp hc with hc | hc
    · exact hzeros _ c hc
    · exact hdigits c hc

/-! ## The double that is read -/

section Near

variable {n m : Nat} {e q : Int}

/-- Within the bounds of doubles, a decimal is read as the double that it is near. -/
theorem unpack_nearest (hn : 0 < n) (hlow : -330 ≤ e + (n.log2 : Int) * 30103 / 100000)
    (hhigh : e + (n.log2 : Int) * 30103 / 100000 ≤ 311) (hsize : e.natAbs ≤ 2 ^ 11) (hm : Canonical m q)
    (hnear : Near (n * 10 ^ e) m q) : (nearest n e).toModel.unpack = .finite .positive m q hm.pos := by
  unfold nearest
  rw [if_neg (Nat.ne_of_gt hn)]
  dsimp only
  rw [if_neg (not_lt.mpr hhigh), if_neg (not_lt.mpr hlow)]
  refine unpack_ofScientific hn hsize hm ?_
  have hexponent : (if decide (e < 0) = true then -(e.natAbs : Int) else e.natAbs) = e := by
    split
    · rename_i hnegative
      rw [decide_eq_true_iff] at hnegative
      omega
    · rename_i hnegative
      rw [decide_eq_true_iff] at hnegative
      omega
  rwa [hexponent]

/-- What is near a double lies below the end of the doubles. -/
theorem lt_of_near {x : ℚ} (hm : Canonical m q) (h : Near x m q) : x < 2 ^ 1024 := by
  have hdigits : (m : ℚ) + 1 ≤ 2 ^ 53 := by exact_mod_cast hm.digits
  have hq := zpow_pos_two q
  have hbound := h.le
  calc x
    _ ≤ (m + 1 / 2) * 2 ^ q := hbound
    _ < 2 ^ 53 * 2 ^ q := mul_lt_mul_of_pos_right (by linarith) hq
    _ ≤ 2 ^ 53 * 2 ^ (971 : Int) :=
      mul_le_mul_of_nonneg_left (zpow_le_zpow_right₀ one_le_two hm.most) (by positivity)
    _ = 2 ^ 1024 := by
      rw [← zpow_natCast, ← zpow_natCast, ← zpow_add₀ two_ne_zero]
      norm_num

/-- The digits that were found for a double are read as the double. -/
theorem unsigned?_digits (tie : Tie) {i : Interval} (hi : i.Surrounds m q) (hm : Canonical m q) :
    ∃ x, unsigned? (plainLayout.plain (Nat.toDigits 10 (i.shortest tie).number) (i.shortest tie).point) = some x ∧
      x.toModel.unpack = .finite .positive m q hm.pos := by
  obtain ⟨hnear, hpos, hlength, hpoint⟩ := shortest_spec tie hi hm
  obtain ⟨n, e, hread, hvalue, hexponent⟩ := unsigned?_plain (i.shortest tie)
  rw [← hvalue] at hnear
  refine ⟨_, hread, ?_⟩
  rcases hexponent with rfl | ⟨rfl, rfl, hnegative⟩
  · -- A whole number below the end of the doubles.
    rw [zpow_zero, mul_one] at hnear
    have hn : 0 < n := by
      have hpositive : (0 : ℚ) < n := by
        rw [zpow_zero, mul_one] at hvalue
        rw [hvalue]
        exact mul_pos (by exact_mod_cast hpos) (zpow_pos (by norm_num) _)
      exact_mod_cast hpositive
    have hsmall : n < 2 ^ 1024 := by exact_mod_cast lt_of_near hm hnear
    have hlog := (Nat.log2_lt (Nat.ne_of_gt hn)).mpr hsmall
    refine unpack_nearest hn (by omega) (by omega) (by decide) hm ?_
    rwa [zpow_zero, mul_one]
  · -- No more than seventeen digits, and an exponent.
    obtain ⟨count, hcount⟩ := Nat.exists_eq_add_one.mpr (Nat.length_toDigits_pos (n := (i.shortest tie).number) (b := 10))
    have hsmall : (i.shortest tie).number < 2 ^ 57 :=
      ((Nat.length_toDigits_le_iff (by decide) (by decide)).mp hlength).trans (by decide)
    have hlarge : 2 ^ (3 * count) ≤ (i.shortest tie).number := by
      rw [pow_mul]
      exact (Nat.pow_le_pow_left (by decide) count).trans (bounds_of_length_toDigits hpos hcount).1
    have hlog := (Nat.log2_lt (Nat.ne_of_gt hpos)).mpr hsmall
    have hlog' := (Nat.le_log2 (Nat.ne_of_gt hpos)).mpr hlarge
    rw [hcount] at hlength hnegative hnear ⊢
    exact unpack_nearest hpos (by omega) (by omega) (by omega) hm hnear

end Near

/-! ## Signs -/

/-- A number that starts with a digit is read without a sign and with one. -/
theorem number?_of_unsigned? {d : Char} {rest : List Char} {x : Float} (hd : d.isDigit = true)
    (h : unsigned? (d :: rest) = some x) :
    number? (String.ofList (d :: rest)) = some x ∧ number? (String.ofList ('-' :: d :: rest)) = some (-x) := by
  have hlower := toLower_of_isDigit hd
  have hword : ∀ {c : Char} {word : List Char}, c.isDigit = false →
      String.ofList ((d :: rest).map Char.toLower) ≠ String.ofList (c :: word) := by
    intro c word hc heq
    have hlists := congrArg String.toList heq
    rw [String.toList_ofList, String.toList_ofList, List.map_cons, hlower] at hlists
    rw [(List.cons.inj hlists).1, hc] at hd
    cases hd
  have hsigned : signed (d :: rest) = (false, d :: rest) := by
    unfold signed
    split
    · rename_i heq
      rw [(List.cons.inj heq).1] at hd
      cases hd
    · rename_i heq
      rw [(List.cons.inj heq).1] at hd
      cases hd
    · rfl
  have hinf : String.ofList ((d :: rest).map Char.toLower) ≠ "inf" := hword (by decide : 'i'.isDigit = false)
  have hinfinity : String.ofList ((d :: rest).map Char.toLower) ≠ "infinity" := hword (by decide : 'i'.isDigit = false)
  have hnan : String.ofList ((d :: rest).map Char.toLower) ≠ "nan" := hword (by decide : 'n'.isDigit = false)
  generalize hlowered : String.ofList ((d :: rest).map Char.toLower) = word at hinf hinfinity hnan
  constructor
  · unfold number?
    rw [String.toList_ofList, hsigned]
    dsimp only
    rw [hlowered]
    simp [hinf, hinfinity, hnan, h]
  · unfold number?
    rw [String.toList_ofList, signed]
    dsimp only
    rw [hlowered]
    simp [hinf, hinfinity, hnan, h]

/-- The first bit of a double is its sign. -/
theorem sign_eq (b : BitVec binary64.numBits) :
    Sign.ofBitVec (unpackSign b) = if b.toNat / 2 ^ 63 = 1 then .negative else .positive := by
  have hbit : (unpackSign b).toNat = b.toNat / 2 ^ 63 := by
    have hextract : (unpackSign b).toNat = b.toNat >>> 63 % 2 ^ 1 := BitVec.extractLsb'_toNat 63 1 b
    have hsize : b.toNat < 2 ^ 64 := b.isLt
    rw [hextract, Nat.shiftRight_eq_div_pow]
    omega
  rw [← hbit]
  generalize unpackSign b = sign
  have hsign : sign = 0#1 ∨ sign = 1#1 := by bv_omega
  rcases hsign with rfl | rfl
  · rfl
  · rfl

/-- Behind the sign of a double, a number that is the double up to its sign is read as the double. -/
theorem number?_behind_sign {d : Char} {rest : List Char} {x y : Float} {s : Sign} (hd : d.isDigit = true)
    (h : unsigned? (d :: rest) = some y) (hs : (if x.toBits.toNat / 2 ^ 63 = 1 then .negative else .positive) = s)
    (hx : x.toModel.unpack = match s with
      | .positive => y.toModel.unpack
      | .negative => y.toModel.unpack.neg) (hnan : x.isNaN = false) :
    number? (String.ofList ((if x.toBits.toNat / Word.half = 1 then ['-'] else []) ++ d :: rest)) = some x := by
  have hhalf : Word.half = 2 ^ 63 := rfl
  obtain ⟨hpositive, hnegative⟩ := number?_of_unsigned? hd h
  have hnumber := unpack_ne_notANumber hnan
  rw [hhalf]
  cases s with
  | positive =>
      have hplus : ¬ x.toBits.toNat / 2 ^ 63 = 1 := fun hminus => by
        rw [if_pos hminus] at hs
        cases hs
      rw [if_neg hplus, List.nil_append, hpositive, eq_of_unpack hx hnumber]
  | negative =>
      have hminus : x.toBits.toNat / 2 ^ 63 = 1 := by_contra fun hplus => by
        rw [if_neg hplus] at hs
        cases hs
      rw [if_pos hminus, List.cons_append, List.nil_append, hnegative,
        eq_of_unpack (hx.trans (unpack_neg y).symm) hnumber]

/-- A double that is zero has no bits but its sign. -/
theorem half_eq_zero {x : Float} {s : Sign} (h : x.toModel.unpack = .zero s) : x.toBits.toNat % Word.half = 0 := by
  obtain ⟨-, hexponent, hmantissa⟩ := fields_of_zero (b := x.toModel.toBits.toBitVec) h
  have hexponent' := toNat_unpackExponent x.toModel.toBits.toBitVec
  have hmantissa' := toNat_unpackMantissa x.toModel.toBits.toBitVec
  have hbits : x.toModel.toBits.toBitVec.toNat = x.toBits.toNat := rfl
  rw [hexponent, hbits] at hexponent'
  rw [hmantissa, hbits] at hmantissa'
  have hfields : 0 = x.toBits.toNat / 2 ^ 52 % 2 ^ 11 ∧ 0 = x.toBits.toNat % 2 ^ 52 := ⟨hexponent', hmantissa'⟩
  have hhalf : Word.half = 2 ^ 63 := rfl
  rw [hhalf]
  omega

/-- A finite double that is not zero has bits beside its sign. -/
theorem half_ne_zero {x : Float} {s : Sign} {m : Nat} {q : Int} {hm : 0 < m} (h : x.toModel.unpack = .finite s m q hm) :
    x.toBits.toNat % Word.half ≠ 0 := by
  have hcanonical := canonical_of_unpack (b := x.toModel.toBits.toBitVec) h
  obtain ⟨-, hexponent, hmantissa⟩ := fields_of_finite (b := x.toModel.toBits.toBitVec) h
  have hbits : x.toModel.toBits.toBitVec.toNat = x.toBits.toNat := rfl
  rw [toNat_unpackExponent, hbits] at hexponent
  rw [toNat_unpackMantissa, hbits] at hmantissa
  have hhalf : Word.half = 2 ^ 63 := rfl
  intro hzero
  rw [hhalf] at hzero
  split at hmantissa
  · omega
  · rename_i hlarge
    rw [if_neg hlarge] at hexponent
    have hleast := hcanonical.least
    omega

/-- **A finite double is read again.** -/
theorem number?_write {x : Float} (hnan : x.isNaN = false) (hinf : x.isInf = false) :
    number? (write plainLayout x) = some x := by
  have hsign := sign_eq x.toModel.toBits.toBitVec
  have hbits : x.toModel.toBits.toBitVec.toNat = x.toBits.toNat := rfl
  rw [hbits] at hsign
  unfold write
  rw [hnan, hinf]
  simp only [Bool.false_eq_true, if_false]
  cases hunpack : x.toModel.unpack with
  | notANumber => exact absurd hunpack (unpack_ne_notANumber hnan)
  | infinity s =>
      have hmodel : x.isInf = x.toModel.unpack.isInf := rfl
      rw [hmodel, hunpack] at hinf
      cases hinf
  | zero s =>
      obtain ⟨hs, -, -⟩ := fields_of_zero (b := x.toModel.toBits.toBitVec) hunpack
      rw [if_pos (half_eq_zero hunpack)]
      refine number?_behind_sign (by decide : '0'.isDigit = true) (by rfl : unsigned? ['0'] = some 0.0)
        (hsign.symm.trans hs) ?_ hnan
      cases s with
      | positive => exact hunpack
      | negative => exact hunpack
  | finite s m q hm =>
      have hcanonical := canonical_of_unpack (b := x.toModel.toBits.toBitVec) hunpack
      obtain ⟨hs, -, -⟩ := fields_of_finite (b := x.toModel.toBits.toBitVec) hunpack
      obtain ⟨y, hread, hy⟩ := unsigned?_digits plainLayout.tie (surrounds_ofBits hunpack) hcanonical
      obtain ⟨d, rest, hplain, hd, -⟩ := plain_eq_cons
        ((Interval.ofBits (x.toBits.toNat % Word.half)).shortest plainLayout.tie).point Nat.toDigits_ne_nil
        fun c hc => isDigit_of_mem_toDigits hc
      rw [hplain] at hread
      rw [if_neg (half_ne_zero hunpack)]
      have hlayout : plainLayout.digits ((Interval.ofBits (x.toBits.toNat % Word.half)).shortest plainLayout.tie) =
          d :: rest := hplain
      rw [hlayout]
      refine number?_behind_sign hd hread (hsign.symm.trans hs) ?_ hnan
      cases s with
      | positive => exact hunpack.trans hy.symm
      | negative =>
          rw [hy, hunpack]
          rfl

end SearchLab.Decimal
