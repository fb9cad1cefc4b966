import SearchLab.Decimal.Layout
import SearchLab.Decimal.Reader

/-!
# Numbers on a line

The digits of a natural number are read back as the number, as far as counts go. A finite double is written without
an exponent, so all that stands on a line for it are digits and a point, behind a minus where it is negative.
-/

namespace SearchLab.Decimal

/-- Digits are the characters from `0` to `9`. -/
theorem toNat_of_isDigit {c : Char} (h : c.isDigit = true) : 48 ≤ c.toNat ∧ c.toNat ≤ 57 := by
  simpa [Char.isDigit, UInt32.le_iff_toNat_le] using h

/-- Digits are small letters already. -/
theorem toLower_of_isDigit {c : Char} (h : c.isDigit = true) : c.toLower = c := by
  have hrange := toNat_of_isDigit h
  have hsmall : ¬ (65 ≤ c.toNat ∧ c.toNat ≤ 90) := by omega
  unfold Char.toLower
  split
  · rename_i hupper
    exact absurd hupper hsmall
  · rfl

theorem isDigit_of_mem_toDigits {n : Nat} {c : Char} (h : c ∈ Nat.toDigits 10 n) : c.isDigit = true :=
  Nat.isDigit_of_mem_toDigits (by decide) (by decide) h

/-- A natural number that is read is a count. -/
theorem le_of_natural? {cs : List Char} {n : Nat} (h : natural? cs = some n) : n ≤ maxCount := by
  have hbounded : ∀ ds : List Char, (if (ds.isEmpty || !ds.all Char.isDigit) = true then none
      else if numberOf 0 ds ≤ maxCount then some (numberOf 0 ds) else none) = some n → n ≤ maxCount := by
    intro ds hds
    split at hds
    · cases hds
    · split at hds
      · rename_i hle
        exact Option.some.inj hds ▸ hle
      · cases hds
  exact hbounded _ h

/-- The digits of a count are read back as the count. -/
theorem natural?_toDigits {n : Nat} (h : n ≤ maxCount) : natural? (Nat.toDigits 10 n) = some n := by
  obtain ⟨d, ds, hdigits⟩ := List.exists_cons_of_ne_nil (Nat.toDigits_ne_nil (n := n) (b := 10))
  have hplus : d ≠ '+' := by
    rintro rfl
    exact absurd (isDigit_of_mem_toDigits (hdigits ▸ List.mem_cons_self)) (by decide)
  have hall : (Nat.toDigits 10 n).all Char.isDigit = true :=
    List.all_eq_true.mpr fun c hc => isDigit_of_mem_toDigits hc
  have hvalue : numberOf 0 (Nat.toDigits 10 n) = n := Nat.ofDigitChars_ten_toDigits
  rw [hdigits] at hall hvalue ⊢
  have hunsigned : natural? (d :: ds) = if (d :: ds).isEmpty || !(d :: ds).all Char.isDigit then none
      else if numberOf 0 (d :: ds) ≤ maxCount then some (numberOf 0 (d :: ds)) else none := by
    unfold natural?
    split
    · rename_i hsign
      exact absurd (List.cons.inj hsign).1 hplus
    · rfl
  rw [hunsigned, hvalue, hall, if_pos h]
  rfl

/-- How a number stands on a line: a digit, then digits and points, all behind a minus if there is one. -/
def IsNumeral (cs : List Char) : Prop :=
  ∃ sign d rest, cs = sign ++ d :: rest ∧ (sign = [] ∨ sign = ['-']) ∧ d.isDigit = true ∧
    ∀ c ∈ rest, c.isDigit = true ∨ c = '.'

/-- Digits with the point in place start with a digit, and behind it stand digits and the point. -/
theorem plain_eq_cons {digits : List Char} (point : Int) (hne : digits ≠ []) (hdigits : ∀ c ∈ digits, c.isDigit = true) :
    ∃ d rest, plainLayout.plain digits point = d :: rest ∧ d.isDigit = true ∧
      ∀ c ∈ rest, c.isDigit = true ∨ c = '.' := by
  obtain ⟨d, ds, rfl⟩ := List.exists_cons_of_ne_nil hne
  have hd : d.isDigit = true := hdigits d List.mem_cons_self
  have hds : ∀ c ∈ ds, c.isDigit = true := fun c hc => hdigits c (List.mem_cons_of_mem d hc)
  by_cases hwhole : (((d :: ds).length : Nat) : Int) ≤ point
  · refine ⟨d, ds ++ List.replicate (point - ((d :: ds).length : Nat)).toNat '0', ?_, hd, ?_⟩
    · simp only [Layout.plain, hwhole, if_true, plainLayout, Bool.false_eq_true, if_false, List.append_nil,
        List.cons_append]
    · intro c hc
      rcases List.mem_append.mp hc with hc | hc
      · exact .inl (hds c hc)
      · exact .inl ((List.eq_of_mem_replicate hc) ▸ (by decide))
  · by_cases hpoint : 0 < point
    · obtain ⟨k, hk⟩ : ∃ k, point.toNat = k + 1 := ⟨point.toNat - 1, by omega⟩
      refine ⟨d, ds.take k ++ '.' :: ds.drop k, ?_, hd, ?_⟩
      · simp only [Layout.plain, hwhole, hpoint, if_true, if_false, hk, List.take_succ_cons, List.drop_succ_cons,
          List.cons_append]
      · intro c hc
        rcases List.mem_append.mp hc with hc | hc
        · exact .inl (hds c (List.mem_of_mem_take hc))
        · rcases List.mem_cons.mp hc with rfl | hc
          · exact .inr rfl
          · exact .inl (hds c (List.mem_of_mem_drop hc))
    · refine ⟨'0', '.' :: List.replicate (-point).toNat '0' ++ (d :: ds), ?_, by decide, ?_⟩
      · simp only [Layout.plain, hwhole, hpoint, if_false, List.cons_append]
      · intro c hc
        rcases List.mem_append.mp hc with hc | hc
        · rcases List.mem_cons.mp hc with rfl | hc
          · exact .inr rfl
          · exact .inl ((List.eq_of_mem_replicate hc) ▸ (by decide))
        · exact .inl (hdigits c hc)

/-- A finite double is written as a numeral. -/
theorem isNumeral_write {x : Float} (hnan : x.isNaN = false) (hinf : x.isInf = false) :
    IsNumeral (write plainLayout x).toList := by
  unfold write
  rw [hnan, hinf]
  simp only [Bool.false_eq_true, if_false]
  generalize hsign : (if x.toBits.toNat / Word.half = 1 then ['-'] else []) = sign
  have hminus : sign = [] ∨ sign = ['-'] := by
    rw [← hsign]
    split
    · exact .inr rfl
    · exact .inl rfl
  split
  · refine ⟨sign, '0', [], ?_, hminus, by decide, by simp⟩
    simp [plainLayout]
  · generalize (Interval.ofBits (x.toBits.toNat % Word.half)).shortest plainLayout.tie = d
    obtain ⟨first, rest, hplain, hfirst, hrest⟩ := plain_eq_cons d.point (Nat.toDigits_ne_nil (n := d.number) (b := 10))
      fun c hc => isDigit_of_mem_toDigits hc
    refine ⟨sign, first, rest, ?_, hminus, hfirst, hrest⟩
    rw [String.toList_ofList, ← hplain]
    rfl

end SearchLab.Decimal
