import SearchLab.Bag
import SearchLab.Proofs.Notation.Lines

/-!
# Written data stand on one line

The written form of a value holds no line feed: between quotes a line feed is escaped, and no other part of a value
is written with one. An object is written between braces, so its text is a line in itself.
-/

namespace SearchLab

/-- Decimal digits hold no line feed. -/
theorem Decimal.flat_toDigits (n : Nat) : '\n' ∉ Nat.toDigits 10 n := by
  intro hmem
  have hdigit := Nat.isDigit_of_mem_toDigits (by decide) (by decide) hmem
  exact absurd hdigit (by decide)

/-- A number with its point in place is made of digits and the point. -/
theorem Decimal.Layout.flat_plain (layout : Layout) {digits : List Char} (point : Int) (h : '\n' ∉ digits) :
    '\n' ∉ layout.plain digits point := by
  have htake : '\n' ∉ digits.take point.toNat := fun hmem => h (List.mem_of_mem_take hmem)
  have hdrop : '\n' ∉ digits.drop point.toNat := fun hmem => h (List.mem_of_mem_drop hmem)
  have hfraction : '\n' ∉ (if layout.showsFraction then ['.', '0'] else []) := by
    split <;> decide
  by_cases hwhole : (digits.length : Int) ≤ point
  · simp [plain, hwhole, h, hfraction]
  · by_cases hpoint : 0 < point
    · simp [plain, hwhole, hpoint, htake, hdrop]
    · simp [plain, hwhole, hpoint, h]

/-- A number with an exponent is made of digits, the point, the mark of the exponent and its sign. -/
theorem Decimal.flat_scientific {digits : List Char} (point : Int) (h : '\n' ∉ digits) :
    '\n' ∉ scientific digits point := by
  have hsign : '\n' ≠ (if point - 1 < 0 then '-' else '+') := by
    split <;> decide
  have hexponent := flat_toDigits (point - 1).natAbs
  unfold scientific
  dsimp only
  generalize (if point - 1 < 0 then '-' else '+') = sign at hsign ⊢
  cases digits with
  | nil => simp [hsign, hexponent]
  | cons d ds =>
      have hd : '\n' ≠ d := fun hd => h (hd ▸ List.mem_cons_self)
      have hds : '\n' ∉ ds := fun hmem => h (List.mem_cons_of_mem d hmem)
      cases ds with
      | nil => simp [hd, hsign, hexponent]
      | cons e more => simpa [hd, hsign, hexponent] using hds

/-- A written double holds no line feed. -/
theorem Decimal.flat_write (layout : Layout) (x : Float) : '\n' ∉ (write layout x).toList := by
  have hsign : '\n' ∉ (if x.toBits.toNat / Word.half = 1 then ['-'] else []) := by
    split <;> decide
  have hzero : '\n' ∉ (if layout.showsFraction then ['0', '.', '0'] else ['0']) := by
    split <;> decide
  have hdigits : ∀ d, '\n' ∉ layout.digits d := by
    intro d
    have hshown := flat_toDigits d.number
    unfold Layout.digits
    split
    · split
      · exact layout.flat_plain d.point hshown
      · exact flat_scientific d.point hshown
    · exact layout.flat_plain d.point hshown
  unfold write
  split
  · decide
  · dsimp only
    split
    · simp [hsign]
    · split
      · simp [hsign, hzero]
      · simp [hsign, hdigits]

namespace Json

/-- A hexadecimal digit is no line feed. -/
theorem hexDigit_ne_feed {n : Nat} (h : n < 16) : Text.hexDigit n ≠ '\n' := by
  have hall : ∀ m ∈ List.range 16, Text.hexDigit m ≠ '\n' := by decide
  exact hall n (List.mem_range.mpr h)

/-- The escape of a character holds no line feed. -/
theorem flat_escape (c : Char) : '\n' ∉ escape c := by
  unfold escape Text.Letters.escape
  cases hletter : Text.dataLetters.letter? c with
  | some letter =>
      obtain ⟨m, hm, rfl⟩ := Option.map_eq_some_iff.mp hletter
      have hall : ∀ m ∈ Text.dataLetters, '\n' ∉ ['\\', m.2] := by decide
      exact hall m (List.mem_of_find?_eq_some hm)
  | none =>
      dsimp only
      split
      · rename_i hsmall
        have hhigh := hexDigit_ne_feed (n := c.toNat / 16) (by omega)
        have hlow := hexDigit_ne_feed (n := c.toNat % 16) (by omega)
        simp [hhigh.symm, hlow.symm]
      · rw [List.mem_singleton]
        rintro rfl
        exact absurd hletter (by decide)

theorem flat_quote (s : String) : '\n' ∉ (quote s).toList := by
  have hescape : '\n' ∉ s.toList.flatMap escape := by
    intro hmem
    obtain ⟨c, _, hc⟩ := List.mem_flatMap.mp hmem
    exact flat_escape c hc
  simpa [quote] using hescape

theorem flat_writeNumber (n : Number) : '\n' ∉ (writeNumber n).toList := by
  cases n with
  | float x => exact Decimal.flat_write _ x
  | int n =>
      have hnat : ∀ m : Nat, '\n' ∉ (toString m).toList := by
        intro m
        rw [Nat.toString_eq_repr, Nat.toList_repr]
        exact Decimal.flat_toDigits m
      cases n with
      | ofNat m => exact hnat m
      | negSucc m =>
          have hwrite : writeNumber (.int (Int.negSucc m)) = "-" ++ toString (m + 1) := rfl
          rw [hwrite, String.toList_append, List.mem_append]
          rintro (hmem | hmem)
          · exact absurd hmem (by decide)
          · exact hnat (m + 1) hmem

mutual

/-- The written form of a value holds no line feed. -/
theorem flat_write : ∀ v : Json, '\n' ∉ v.write.toList
  | .null => by simp [write]
  | .bool true => by simp [write]
  | .bool false => by simp [write]
  | .number n => by simpa [write] using flat_writeNumber n
  | .text s => by simpa [write] using flat_quote s
  | .list items => by simpa [write] using flat_writeItems items
  | .object members => by simpa [write] using flat_writeMembers members

/-- The written forms of some values hold no line feed. -/
theorem flat_writeItems : ∀ items : List Json, '\n' ∉ (writeItems items).toList
  | [] => by simp [writeItems]
  | [v] => by simpa [writeItems] using flat_write v
  | v :: w :: vs => by
      have hfirst := flat_write v
      have hrest := flat_writeItems (w :: vs)
      simpa [writeItems, hfirst] using hrest

/-- The written forms of some members hold no line feed. -/
theorem flat_writeMembers : ∀ members : List (String × Json), '\n' ∉ (writeMembers members).toList
  | [] => by simp [writeMembers]
  | [(k, v)] => by simpa [writeMembers, flat_quote k] using flat_write v
  | (k, v) :: m :: ms => by
      have hfirst := flat_write v
      have hrest := flat_writeMembers (m :: ms)
      simpa [writeMembers, flat_quote k, hfirst] using hrest

end

end Json

namespace Bag

open Notation

/-- A written bag starts with the brace that data start with. -/
theorem toList_toText (bag : Bag) :
    bag.toText.toList = '\x7b' :: (Json.writeMembers bag).toList ++ ['\x7d'] := by
  simp [toText, toJson, Json.write]

/-- A written bag is a line in itself. -/
theorem trimmed_toText (bag : Bag) : Trimmed bag.toText.toList := by
  have hopen : Trimmed ['\x7b'] := Trimmed.singleton (by decide)
  have hclose : Trimmed ['\x7d'] := Trimmed.singleton (by decide)
  rw [toList_toText]
  exact hopen.around hclose (Json.flat_writeMembers bag)

end Bag

end SearchLab
