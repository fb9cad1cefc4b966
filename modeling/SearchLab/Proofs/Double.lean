import Mathlib.Algebra.Group.Nat.Defs

/-!
# Equal doubles

The test for equality takes the two zeros for one and is not met by what is no number. Two doubles that pass it are
therefore the same, or both are zeros: a double that is no zero is found again from its sign, its exponent and its
digits.

* `eq_or_zeros_of_beq` — what the test for equality says;
* `unpack_pack_finite` — a finite double that was packed is unpacked again.
-/

namespace SearchLab.Double

open Float.Model Float.Model.UnpackedFloat Float.Model.Format

/-- The bits of a double are those of its sign, its exponent and its digits. -/
theorem bits_ext {b c : BitVec binary64.numBits} (hsign : unpackSign b = unpackSign c)
    (hexponent : unpackExponent b = unpackExponent c) (hmantissa : unpackMantissa b = unpackMantissa c) : b = c := by
  apply BitVec.eq_of_getLsbD_eq
  intro i hi
  have hi : i < 64 := hi
  by_cases hlow : i < 52
  · have hbit := congrArg (fun v => v.getLsbD i) hmantissa
    simpa [unpackMantissa, hlow] using hbit
  · by_cases hmiddle : i < 63
    · have hbit := congrArg (fun v => v.getLsbD (i - 52)) hexponent
      have hplace : 52 + (i - 52) = i := by omega
      have hsmall : i - 52 < 11 := by omega
      simpa [unpackExponent, hplace, hsmall] using hbit
    · have hlast : i = 63 := by omega
      have hbit := congrArg (fun v => v.getLsbD 0) hsign
      subst hlast
      have hbit : (b.extractLsb' 63 1).getLsbD 0 = (c.extractLsb' 63 1).getLsbD 0 := hbit
      simpa using hbit

theorem sign_ext {s t : BitVec 1} (h : Sign.ofBitVec s = Sign.ofBitVec t) : s = t := by
  unfold Sign.ofBitVec at h
  by_cases hs : s = 0#1 <;> by_cases ht : t = 0#1
  · rw [hs, ht]
  · simp [hs, ht] at h
  · simp [hs, ht] at h
  · bv_omega

/-- The digits of a double with a leading one. -/
theorem toNat_lead (m : BitVec binary64.mantissaBitsWithoutImplicit) : (1#1 ++ m).toNat = 2 ^ 52 + m.toNat := by
  rw [BitVec.toNat_append, ← Nat.shiftLeft_add_eq_or_of_lt m.isLt]
  rfl

/-- What the bits of a double are unpacked to: the largest exponent is that of the infinities and of what is no number,
and the least one that of the zeros and of the numbers without a leading digit. -/
theorem unpack_cases (b : BitVec binary64.numBits) :
    (unpackExponent b = -1#_ ∧ unpackMantissa b = 0#_ ∧
        UnpackedFloat.unpack binary64 b = .infinity (Sign.ofBitVec (unpackSign b))) ∨
      UnpackedFloat.unpack binary64 b = .notANumber ∨
      (unpackExponent b = 0#_ ∧ unpackMantissa b = 0#_ ∧
        UnpackedFloat.unpack binary64 b = .zero (Sign.ofBitVec (unpackSign b))) ∨
      (unpackExponent b = 0#_ ∧ ∃ hm, UnpackedFloat.unpack binary64 b =
        .finite (Sign.ofBitVec (unpackSign b)) (unpackMantissa b).toNat (-1074) hm) ∨
      (unpackExponent b ≠ -1#_ ∧ unpackExponent b ≠ 0#_ ∧ ∃ hm, UnpackedFloat.unpack binary64 b =
        .finite (Sign.ofBitVec (unpackSign b)) (1#1 ++ unpackMantissa b).toNat
          (((unpackExponent b).toNat : Int) - 1075) hm) := by
  unfold UnpackedFloat.unpack
  dsimp only
  by_cases hlargest : unpackExponent b = -1#_
  · rw [if_pos hlargest]
    by_cases hmantissa : unpackMantissa b = 0#_
    · rw [if_pos hmantissa]
      exact .inl ⟨hlargest, hmantissa, rfl⟩
    · rw [if_neg hmantissa]
      exact .inr (.inl rfl)
  · rw [if_neg hlargest]
    by_cases hleast : unpackExponent b = 0#_
    · rw [if_pos hleast]
      by_cases hmantissa : unpackMantissa b = 0#_
      · rw [dif_pos hmantissa]
        exact .inr (.inr (.inl ⟨hleast, hmantissa, rfl⟩))
      · rw [dif_neg hmantissa]
        have hpos : 0 < (unpackMantissa b).toNat := Nat.pos_of_ne_zero fun hzero =>
          hmantissa (BitVec.eq_of_toNat_eq hzero)
        refine .inr (.inr (.inr (.inl ⟨hleast, hpos, ?_⟩)))
        rw [hleast]
        rfl
    · rw [if_neg hleast]
      have hpos : 0 < (1#1 ++ unpackMantissa b).toNat := by
        rw [toNat_lead]
        omega
      exact .inr (.inr (.inr (.inr ⟨hlargest, hleast, hpos, rfl⟩)))

/-- Bits with an exponent between the least and the largest are unpacked to a number with a leading digit. -/
theorem unpack_of_lead {b : BitVec binary64.numBits} {s : Sign} {m : Nat} {e : Int} {hm : 0 < m}
    (hsign : Sign.ofBitVec (unpackSign b) = s) (hlargest : unpackExponent b ≠ -1#_) (hleast : unpackExponent b ≠ 0#_)
    (hmantissa : (1#1 ++ unpackMantissa b).toNat = m) (hexponent : ((unpackExponent b).toNat : Int) - 1075 = e) :
    UnpackedFloat.unpack binary64 b = .finite s m e hm := by
  subst hsign hmantissa hexponent
  unfold UnpackedFloat.unpack
  dsimp only
  rw [if_neg hlargest, if_neg hleast]
  rfl

/-- Bits with the least exponent are unpacked to a number without a leading digit. -/
theorem unpack_of_least {b : BitVec binary64.numBits} {s : Sign} {m : Nat} {hm : 0 < m}
    (hsign : Sign.ofBitVec (unpackSign b) = s) (hleast : unpackExponent b = 0#_)
    (hmantissa : (unpackMantissa b).toNat = m) : UnpackedFloat.unpack binary64 b = .finite s m (-1074) hm := by
  subst hsign hmantissa
  have hlargest : unpackExponent b ≠ -1#_ := by
    rw [hleast]
    decide
  have hpos : unpackMantissa b ≠ 0#_ := by
    intro hzero
    rw [hzero] at hm
    exact absurd hm (by decide)
  unfold UnpackedFloat.unpack
  dsimp only
  rw [if_neg hlargest, if_pos hleast, dif_neg hpos, hleast]
  rfl

/-- What an infinity says of its bits. -/
theorem fields_of_infinity {b : BitVec binary64.numBits} {s : Sign}
    (h : UnpackedFloat.unpack binary64 b = .infinity s) :
    Sign.ofBitVec (unpackSign b) = s ∧ unpackExponent b = -1#_ ∧ unpackMantissa b = 0#_ := by
  rcases unpack_cases b with ⟨hexponent, hmantissa, hb⟩ | hb | ⟨_, _, hb⟩ | ⟨_, _, hb⟩ | ⟨_, _, _, hb⟩
  · exact ⟨UnpackedFloat.infinity.inj (hb.symm.trans h), hexponent, hmantissa⟩
  all_goals cases hb.symm.trans h

/-- What a finite number says of its bits. Its leading digit is kept only where all digits of a mantissa are there. -/
theorem fields_of_finite {b : BitVec binary64.numBits} {s : Sign} {m : Nat} {e : Int} {hm : 0 < m}
    (h : UnpackedFloat.unpack binary64 b = .finite s m e hm) :
    Sign.ofBitVec (unpackSign b) = s ∧ ((unpackExponent b).toNat : Int) = (if m < 2 ^ 52 then 0 else e + 1075) ∧
      (unpackMantissa b).toNat = if m < 2 ^ 52 then m else m - 2 ^ 52 := by
  have hsmall : (unpackMantissa b).toNat < 2 ^ 52 := (unpackMantissa b).isLt
  rcases unpack_cases b with ⟨_, _, hb⟩ | hb | ⟨_, _, hb⟩ | ⟨hexponent, _, hb⟩ | ⟨_, _, _, hb⟩
  · cases hb.symm.trans h
  · cases hb.symm.trans h
  · cases hb.symm.trans h
  · obtain ⟨hs, hmantissa, _⟩ := UnpackedFloat.finite.inj (hb.symm.trans h)
    rw [← hmantissa, if_pos hsmall, if_pos hsmall, hexponent]
    exact ⟨hs, rfl, rfl⟩
  · obtain ⟨hs, hmantissa, hexponent⟩ := UnpackedFloat.finite.inj (hb.symm.trans h)
    rw [toNat_lead] at hmantissa
    have hlarge : ¬ m < 2 ^ 52 := by omega
    rw [if_neg hlarge, if_neg hlarge]
    exact ⟨hs, by omega, by omega⟩

/-- What the order of unpacked doubles calls equal. -/
theorem compare_eq {x y : UnpackedFloat} (h : x.compare y = some .eq) :
    (∃ s, x = .infinity s ∧ y = .infinity s) ∨ (∃ s t, x = .zero s ∧ y = .zero t) ∨
      ∃ s m e hm, x = .finite s m e hm ∧ y = .finite s m e hm := by
  have hthen : ∀ {m n : Nat} {d e : Int}, (compare d e).then (compare m n) = .eq → m = n ∧ d = e := by
    intro m n d e heq
    rw [Ordering.then_eq_eq] at heq
    exact ⟨Nat.compare_eq_eq.mp heq.2, Int.compare_eq_eq.mp heq.1⟩
  cases x with
  | notANumber => cases y <;> cases h
  | infinity s =>
      cases y with
      | infinity t =>
          cases s <;> cases t
          · exact .inl ⟨_, rfl, rfl⟩
          · cases h
          · cases h
          · exact .inl ⟨_, rfl, rfl⟩
      | notANumber => cases h
      | zero t => cases s <;> cases h
      | finite t m e hm => cases s <;> cases h
  | zero s =>
      cases y with
      | zero t => exact .inr (.inl ⟨s, t, rfl, rfl⟩)
      | notANumber => cases h
      | infinity t => cases t <;> cases h
      | finite t m e hm => cases t <;> cases h
  | finite s m d hm =>
      cases y with
      | notANumber => cases s <;> cases h
      | infinity t => cases s <;> cases t <;> cases h
      | zero t => cases s <;> cases h
      | finite t n e hn =>
          refine .inr (.inr ?_)
          cases s <;> cases t
          · obtain ⟨rfl, rfl⟩ := hthen (Ordering.swap_eq_eq.mp (Option.some.inj h))
            exact ⟨_, _, _, _, rfl, rfl⟩
          · cases h
          · cases h
          · obtain ⟨rfl, rfl⟩ := hthen (Option.some.inj h)
            exact ⟨_, _, _, _, rfl, rfl⟩

/-- The bits of a double tell it from all others. -/
theorem eq_of_bits {x y : Float} (h : x.toModel.toBits.toBitVec = y.toModel.toBits.toBitVec) : x = y := by
  obtain ⟨⟨⟨b⟩, hb⟩⟩ := x
  obtain ⟨⟨⟨c⟩, hc⟩⟩ := y
  cases h
  rfl

/-- What a zero says of its bits. -/
theorem fields_of_zero {b : BitVec binary64.numBits} {s : Sign} (h : UnpackedFloat.unpack binary64 b = .zero s) :
    Sign.ofBitVec (unpackSign b) = s ∧ unpackExponent b = 0#_ ∧ unpackMantissa b = 0#_ := by
  rcases unpack_cases b with ⟨_, _, hb⟩ | hb | ⟨hexponent, hmantissa, hb⟩ | ⟨_, _, hb⟩ | ⟨_, _, _, hb⟩
  · cases hb.symm.trans h
  · cases hb.symm.trans h
  · exact ⟨UnpackedFloat.zero.inj (hb.symm.trans h), hexponent, hmantissa⟩
  all_goals cases hb.symm.trans h

/-- What a number is unpacked to tells it from all others. -/
theorem eq_of_unpack {x y : Float} (h : x.toModel.unpack = y.toModel.unpack) (hx : x.toModel.unpack ≠ .notANumber) :
    x = y := by
  have hfields : ∀ b c : BitVec binary64.numBits, UnpackedFloat.unpack binary64 b = x.toModel.unpack →
      UnpackedFloat.unpack binary64 c = x.toModel.unpack →
      unpackSign b = unpackSign c ∧ unpackExponent b = unpackExponent c ∧ unpackMantissa b = unpackMantissa c := by
    intro b c hb hc
    cases hunpack : x.toModel.unpack with
    | notANumber => exact absurd hunpack hx
    | infinity s =>
        obtain ⟨hs, hexponent, hmantissa⟩ := fields_of_infinity (hb.trans hunpack)
        obtain ⟨hs', hexponent', hmantissa'⟩ := fields_of_infinity (hc.trans hunpack)
        exact ⟨sign_ext (hs.trans hs'.symm), hexponent.trans hexponent'.symm, hmantissa.trans hmantissa'.symm⟩
    | zero s =>
        obtain ⟨hs, hexponent, hmantissa⟩ := fields_of_zero (hb.trans hunpack)
        obtain ⟨hs', hexponent', hmantissa'⟩ := fields_of_zero (hc.trans hunpack)
        exact ⟨sign_ext (hs.trans hs'.symm), hexponent.trans hexponent'.symm, hmantissa.trans hmantissa'.symm⟩
    | finite s m e hm =>
        obtain ⟨hs, hexponent, hmantissa⟩ := fields_of_finite (hb.trans hunpack)
        obtain ⟨hs', hexponent', hmantissa'⟩ := fields_of_finite (hc.trans hunpack)
        exact ⟨sign_ext (hs.trans hs'.symm),
          BitVec.eq_of_toNat_eq (Int.ofNat.inj (hexponent.trans hexponent'.symm)),
          BitVec.eq_of_toNat_eq (hmantissa.trans hmantissa'.symm)⟩
  obtain ⟨hsign, hexponent, hmantissa⟩ := hfields x.toModel.toBits.toBitVec y.toModel.toBits.toBitVec rfl h.symm
  exact eq_of_bits (bits_ext hsign hexponent hmantissa)

theorem unpack_zero : (0.0 : Float).toModel.unpack = .zero .positive := by
  rfl

/-- Two doubles that are equal are the same, or both are zeros. -/
theorem eq_or_zeros_of_beq {x y : Float} (h : (x == y) = true) :
    x = y ∨ ((x == 0.0) = true ∧ (y == 0.0) = true) := by
  have hcompare : x.toModel.unpack.compare y.toModel.unpack = some .eq := eq_of_beq h
  have hzero : ∀ {z : Float} {s : Sign}, z.toModel.unpack = .zero s → (z == 0.0) = true := by
    intro z s hz
    have hequal : (z.toModel.unpack.compare (0.0 : Float).toModel.unpack == some .eq) = true := by
      rw [hz, unpack_zero]
      rfl
    exact hequal
  rcases compare_eq hcompare with ⟨s, hx, hy⟩ | ⟨s, t, hx, hy⟩ | ⟨s, m, e, hm, hx, hy⟩
  · exact .inl (eq_of_unpack (hx.trans hy.symm) fun hnone => by cases hx.symm.trans hnone)
  · exact .inr ⟨hzero hx, hzero hy⟩
  · exact .inl (eq_of_unpack (hx.trans hy.symm) fun hnone => by cases hx.symm.trans hnone)

theorem unpack_ne_notANumber {x : Float} (h : x.isNaN = false) : x.toModel.unpack ≠ .notANumber := by
  intro hunpack
  have hnan : x.isNaN = x.toModel.unpack.isNaN := rfl
  rw [hnan, hunpack] at h
  cases h

/-- A number is equal to itself. -/
theorem beq_self {x : Float} (h : x.isNaN = false) : (x == x) = true := by
  have hmodel : (x == x) = (x.toModel.unpack.compare x.toModel.unpack == some .eq) := rfl
  have hthen : ∀ (m : Nat) (e : Int), (compare e e).then (compare m m) = .eq := by
    intro m e
    rw [Ordering.then_eq_eq]
    exact ⟨Int.compare_eq_eq.mpr rfl, Nat.compare_eq_eq.mpr rfl⟩
  rw [hmodel]
  cases hx : x.toModel.unpack with
  | notANumber => exact absurd hx (unpack_ne_notANumber h)
  | infinity s => cases s <;> rfl
  | zero s => rfl
  | finite s m e hm =>
      cases s
      · exact beq_iff_eq.mpr (congrArg (fun o : Ordering => some o.swap) (hthen m e))
      · exact beq_iff_eq.mpr (congrArg some (hthen m e))

/-- Of equal doubles both are infinite or none. -/
theorem isInf_of_beq {x y : Float} (h : (x == y) = true) : x.isInf = y.isInf := by
  have hmodel : ∀ z : Float, z.isInf = z.toModel.unpack.isInf := fun _ => rfl
  rw [hmodel, hmodel]
  rcases compare_eq (eq_of_beq h) with ⟨s, hx, hy⟩ | ⟨s, t, hx, hy⟩ | ⟨s, m, e, hm, hx, hy⟩
  · rw [hx, hy]
  · rw [hx, hy]
    rfl
  · rw [hx, hy]

/-! ## Packing -/

/-- A mantissa and an exponent as the finite doubles have them: the mantissa has all its digits, unless the exponent is
the least one. -/
structure Canonical (m : Nat) (e : Int) : Prop where
  pos : 0 < m
  digits : m < 2 ^ 53
  least : -1074 ≤ e
  most : e ≤ 971
  full : 2 ^ 52 ≤ m ∨ e = -1074

theorem canonical_of_unpack {b : BitVec binary64.numBits} {s : Sign} {m : Nat} {e : Int} {hm : 0 < m}
    (h : UnpackedFloat.unpack binary64 b = .finite s m e hm) : Canonical m e := by
  have hsmall : (unpackMantissa b).toNat < 2 ^ 52 := (unpackMantissa b).isLt
  rcases unpack_cases b with ⟨_, _, hb⟩ | hb | ⟨_, _, hb⟩ | ⟨_, _, hb⟩ | ⟨hlargest, hleast, _, hb⟩
  · cases hb.symm.trans h
  · cases hb.symm.trans h
  · cases hb.symm.trans h
  · obtain ⟨-, hmantissa, hexponent⟩ := UnpackedFloat.finite.inj (hb.symm.trans h)
    exact ⟨hm, by omega, by omega, by omega, .inr hexponent.symm⟩
  · obtain ⟨-, hmantissa, hexponent⟩ := UnpackedFloat.finite.inj (hb.symm.trans h)
    rw [toNat_lead] at hmantissa
    have hmost : (unpackExponent b).toNat < 2047 := by
      have hbound : (unpackExponent b).toNat < 2048 := (unpackExponent b).isLt
      have hne : (unpackExponent b).toNat ≠ 2047 := fun heq => hlargest (BitVec.eq_of_toNat_eq heq)
      omega
    have hpos : (unpackExponent b).toNat ≠ 0 := fun heq => hleast (BitVec.eq_of_toNat_eq heq)
    exact ⟨hm, by omega, by omega, by omega, .inl (by omega)⟩

theorem unpackSign_packComponents (s : Sign) (e : BitVec binary64.exponentBits)
    (m : BitVec binary64.mantissaBitsWithoutImplicit) : unpackSign (packComponents binary64 s e m) = s.toBitVec := by
  apply BitVec.eq_of_getLsbD_eq
  intro i hi
  obtain rfl : i = 0 := by omega
  have hbit : (s.toBitVec ++ e ++ m).getLsbD 63 = s.toBitVec.getLsbD 0 := by
    rw [BitVec.getLsbD_append, if_neg (by decide), BitVec.getLsbD_append, if_neg (by decide)]
    rfl
  have hfield : ((s.toBitVec ++ e ++ m).extractLsb' 63 1).getLsbD 0 = (s.toBitVec ++ e ++ m).getLsbD 63 := by
    rw [BitVec.getLsbD_extractLsb', decide_eq_true Nat.one_pos, Bool.true_and]
  exact hfield.trans hbit

theorem ofBitVec_toBitVec (s : Sign) : Sign.ofBitVec s.toBitVec = s := by
  cases s <;> rfl

theorem unpack_pack_infinity (s : Sign) :
    UnpackedFloat.unpack binary64 (UnpackedFloat.pack binary64 (.infinity s)) = .infinity s := by
  cases s <;> rfl

theorem unpack_pack_zero (s : Sign) :
    UnpackedFloat.unpack binary64 (UnpackedFloat.pack binary64 (.zero s)) = .zero s := by
  cases s <;> rfl

/-- The exponents of the finite doubles have room. -/
theorem not_overflows {m : Nat} {e : Int} (h : Canonical m e) : ¬ 2 ^ 11 ≤ (e + 1023 + 52).toNat + 1 := by
  have hmost := h.most
  omega

/-- With all its digits, a mantissa is packed without the first one. -/
theorem unpack_pack_full (s : Sign) {m : Nat} {e : Int} (h : Canonical m e) (hfull : 2 ^ 52 ≤ m) :
    UnpackedFloat.unpack binary64 (UnpackedFloat.pack binary64 (.finite s m e h.pos)) = .finite s m e h.pos := by
  have hroom := not_overflows h
  have hleast := h.least
  have hfield : (BitVec.ofNat 11 (e + 1023 + 52).toNat).toNat = (e + 1023 + 52).toNat := by
    rw [BitVec.toNat_ofNat, Nat.mod_eq_of_lt (by omega)]
  have hlog : m.log2 + 1 = 53 := by
    have hlow := (Nat.le_log2 (Nat.ne_of_gt h.pos)).mpr hfull
    have hhigh := (Nat.log2_lt (Nat.ne_of_gt h.pos)).mpr h.digits
    omega
  have hpack : UnpackedFloat.pack binary64 (.finite s m e h.pos) =
      packComponents binary64 s (BitVec.ofNat 11 (e + 1023 + 52).toNat) (BitVec.ofNat 52 m) := by
    unfold UnpackedFloat.pack
    exact (if_neg hroom).trans (if_pos hlog)
  have hlargest : BitVec.ofNat 11 (e + 1023 + 52).toNat ≠ -1#11 := by
    intro heq
    have hnat := congrArg BitVec.toNat heq
    rw [hfield] at hnat
    have hall : (-1#11 : BitVec 11).toNat = 2047 := rfl
    omega
  have hzero : BitVec.ofNat 11 (e + 1023 + 52).toNat ≠ 0#11 := by
    intro heq
    have hnat := congrArg BitVec.toNat heq
    rw [hfield] at hnat
    have hnone : (0#11 : BitVec 11).toNat = 0 := rfl
    omega
  have hmantissa : (1#1 ++ BitVec.ofNat 52 m).toNat = m := by
    have hdigits := h.digits
    have hlead : (1#1 ++ BitVec.ofNat 52 m).toNat = 2 ^ 52 + (BitVec.ofNat 52 m).toNat := toNat_lead (BitVec.ofNat 52 m)
    rw [hlead, BitVec.toNat_ofNat]
    omega
  have hbias : ((BitVec.ofNat 11 (e + 1023 + 52).toNat).toNat : Int) - 1075 = e := by
    rw [hfield]
    omega
  rw [hpack]
  refine unpack_of_lead ?_ ?_ ?_ ?_ ?_
  · rw [unpackSign_packComponents, ofBitVec_toBitVec]
  · rwa [unpackExponent_packComponents]
  · rwa [unpackExponent_packComponents]
  · rwa [unpackMantissa_packComponents]
  · rwa [unpackExponent_packComponents]

/-- With fewer digits, a mantissa is packed as it is. -/
theorem unpack_pack_least (s : Sign) {m : Nat} (h : Canonical m (-1074)) (hfew : m < 2 ^ 52) :
    UnpackedFloat.unpack binary64 (UnpackedFloat.pack binary64 (.finite s m (-1074) h.pos)) =
      .finite s m (-1074) h.pos := by
  have hlog : ¬ m.log2 + 1 = 53 := by
    have hhigh := (Nat.log2_lt (Nat.ne_of_gt h.pos)).mpr hfew
    omega
  have hpack : UnpackedFloat.pack binary64 (.finite s m (-1074) h.pos) =
      packComponents binary64 s 0#11 (BitVec.ofNat 52 m) := by
    unfold UnpackedFloat.pack
    exact (if_neg (not_overflows h)).trans (if_neg hlog)
  have hvalue : (BitVec.ofNat 52 m).toNat = m := by
    rw [BitVec.toNat_ofNat, Nat.mod_eq_of_lt hfew]
  rw [hpack]
  refine unpack_of_least ?_ ?_ ?_
  · rw [unpackSign_packComponents, ofBitVec_toBitVec]
  · rw [unpackExponent_packComponents]
  · rwa [unpackMantissa_packComponents]

/-- A finite double that was packed is unpacked again. -/
theorem unpack_pack_finite (s : Sign) {m : Nat} {e : Int} (h : Canonical m e) :
    UnpackedFloat.unpack binary64 (UnpackedFloat.pack binary64 (.finite s m e h.pos)) = .finite s m e h.pos := by
  by_cases hfull : 2 ^ 52 ≤ m
  · exact unpack_pack_full s h hfull
  · obtain rfl : e = -1074 := h.full.resolve_left hfull
    exact unpack_pack_least s h (Nat.lt_of_not_le hfull)

/-- The negative of a double differs in its sign. -/
theorem unpack_neg (x : Float) : (-x).toModel.unpack = x.toModel.unpack.neg := by
  have hneg : (-x).toModel.unpack =
      UnpackedFloat.unpack binary64 (UnpackedFloat.pack binary64 x.toModel.unpack.neg) := rfl
  rw [hneg]
  cases hx : x.toModel.unpack with
  | notANumber => rfl
  | infinity s => exact unpack_pack_infinity (-s)
  | zero s => exact unpack_pack_zero (-s)
  | finite s m e hm => exact unpack_pack_finite (-s) (canonical_of_unpack hx)

theorem isInf_neg (x : Float) : (-x).isInf = x.isInf := by
  have hmodel : ∀ y : Float, y.isInf = y.toModel.unpack.isInf := fun _ => rfl
  rw [hmodel, hmodel, unpack_neg]
  cases x.toModel.unpack <;> rfl

/-- There are two infinite doubles. -/
theorem eq_infinity {x : Float} (hnan : x.isNaN = false) (hinf : x.isInf = true) : x = 1.0 / 0.0 ∨ x = -(1.0 / 0.0) := by
  have hnumber := unpack_ne_notANumber hnan
  have hmodel : x.isInf = x.toModel.unpack.isInf := rfl
  rw [hmodel] at hinf
  cases hunpack : x.toModel.unpack with
  | infinity s =>
      cases s with
      | positive => exact .inl (eq_of_unpack (hunpack.trans rfl) hnumber)
      | negative => exact .inr (eq_of_unpack (hunpack.trans rfl) hnumber)
  | _ =>
      rw [hunpack] at hinf
      cases hinf

end SearchLab.Double
