import SearchLab.Notation.Argument
import SearchLab.Proofs.Notation.Lines

/-!
# Arguments are read back

What `Argument.write` puts between quotes, `Argument.readQuoted` reads back, whatever characters it is made of: each
character is escaped on its own, and its escape is read back whatever stands behind it. A bare argument holds nothing
that a reader would stop at.
-/

namespace SearchLab

namespace Text

/-- The value of a digit of a number below 16. -/
theorem hexValue?_digitChar {d : Nat} (h : d < 16) : hexValue? d.digitChar = some d := by
  have hall : ∀ m ∈ List.range 16, hexValue? m.digitChar = some m := by decide
  exact hall d (List.mem_range.mpr h)

/-- The digits of a number are read as values that spell the number. -/
theorem mapM_hexValue?_toDigits (n : Nat) :
    ∃ values, (Nat.toDigits 16 n).mapM hexValue? = some values ∧
      values.foldl (fun n d => 16 * n + d) 0 = n := by
  induction n using Nat.strongRecOn with
  | ind n ih =>
      rcases Nat.lt_or_ge n 16 with hsmall | hlarge
      · refine ⟨[n], ?_, by simp⟩
        rw [Nat.toDigits_of_lt_base hsmall]
        simp [hexValue?_digitChar hsmall]
      · have hdigit : n % 16 < 16 := Nat.mod_lt n (by decide)
        obtain ⟨values, hread, hvalue⟩ := ih (n / 16) (Nat.div_lt_self (by omega) (by decide))
        refine ⟨values ++ [n % 16], ?_, ?_⟩
        · rw [Nat.toDigits_of_base_le (by decide) hlarge, List.mapM_append, hread]
          simp [hexValue?_digitChar hdigit]
        · rw [List.foldl_append, hvalue]
          exact Nat.div_add_mod n 16

/-- A character is read back from its number in hexadecimal digits. -/
theorem charOfHex?_toDigits (c : Char) : charOfHex? (Nat.toDigits 16 c.toNat) = some c := by
  obtain ⟨values, hread, hvalue⟩ := mapM_hexValue?_toDigits c.toNat
  have hne : (Nat.toDigits 16 c.toNat).isEmpty = false := by simp
  have hvalid : c.toNat.isValidChar := c.valid
  simp [charOfHex?, hne, hread, hvalue, hvalid]

/-- Hexadecimal digits are digits or letters. -/
theorem isAlphanum_of_mem_toDigits {c : Char} {n : Nat} (h : c ∈ Nat.toDigits 16 n) : c.isAlphanum = true := by
  have hall : ∀ m ∈ List.range 16, m.digitChar.isAlphanum = true := by decide
  induction n using Nat.strongRecOn with
  | ind n ih =>
      rcases Nat.lt_or_ge n 16 with hsmall | hlarge
      · rw [Nat.toDigits_of_lt_base hsmall, List.mem_singleton] at h
        exact h ▸ hall n (List.mem_range.mpr hsmall)
      · rw [Nat.toDigits_of_base_le (by decide) hlarge, List.mem_append, List.mem_singleton] at h
        rcases h with h | h
        · exact ih (n / 16) (Nat.div_lt_self (by omega) (by decide)) h
        · exact h ▸ hall (n % 16) (List.mem_range.mpr (Nat.mod_lt n (by decide)))

/-- The letters of a line by their characters. -/
theorem letter?_lineLetters {c letter : Char} (h : lineLetters.letter? c = some letter) :
    (c = '"' ∧ letter = '"') ∨ (c = '\\' ∧ letter = '\\') ∨ (c = '\n' ∧ letter = 'n') ∨
      (c = '\r' ∧ letter = 'r') ∨ (c = '\t' ∧ letter = 't') := by
  obtain ⟨m, hm, rfl⟩ := Option.map_eq_some_iff.mp h
  have hmem := List.mem_of_find?_eq_some hm
  have hkey := List.find?_some hm
  simp only [decide_eq_true_eq] at hkey
  subst hkey
  simp only [lineLetters, List.mem_cons, List.not_mem_nil, or_false] at hmem
  rcases hmem with rfl | rfl | rfl | rfl | rfl <;> simp

/-- A character without a letter is none of those that a line has letters for. -/
theorem ne_of_letter?_eq_none {c : Char} (h : lineLetters.letter? c = none) :
    c ≠ '"' ∧ c ≠ '\\' ∧ c ≠ '\n' := by
  refine ⟨?_, ?_, ?_⟩ <;> (intro hc; subst hc; exact absurd h (by decide))

end Text

namespace Notation.Argument

open Text

/-- A number in braces is read back, whatever stands behind it. -/
theorem unescape_numbered (c : Char) (rest : List Char) :
    unescape ('u' :: '\x7b' :: Nat.toDigits 16 c.toNat ++ '\x7d' :: rest) = some (c, rest) := by
  have hslots : ∀ d ∈ Nat.toDigits 16 c.toNat, isDigitSlot d = true := by
    intro d hd
    have halpha := isAlphanum_of_mem_toDigits hd
    simp only [isDigitSlot, bne_iff_ne, ne_eq]
    rintro rfl
    exact absurd halpha (by decide)
  have htake : (Nat.toDigits 16 c.toNat ++ '\x7d' :: rest).takeWhile isDigitSlot = Nat.toDigits 16 c.toNat := by
    rw [List.takeWhile_append_of_pos hslots, List.takeWhile_cons_of_neg (by decide), List.append_nil]
  have hdrop : (Nat.toDigits 16 c.toNat ++ '\x7d' :: rest).dropWhile isDigitSlot = '\x7d' :: rest := by
    rw [List.dropWhile_append_of_pos hslots, List.dropWhile_cons_of_neg (by decide)]
  have hcode : codePoint? (Nat.toDigits 16 c.toNat) = some c := by
    -- No digit is a plus sign, so all of them belong to the number.
    cases hdigits : Nat.toDigits 16 c.toNat with
    | nil => exact absurd hdigits Nat.toDigits_ne_nil
    | cons d more =>
        have hplus : d ≠ '+' := by
          rintro rfl
          have hmem : '+' ∈ Nat.toDigits 16 c.toNat := hdigits ▸ List.mem_cons_self
          exact absurd (isAlphanum_of_mem_toDigits hmem) (by decide)
        have hsame : codePoint? (d :: more) = charOfHex? (d :: more) := by
          simp [codePoint?, hplus]
        rw [hsame, ← hdigits]
        exact charOfHex?_toDigits c
  simp only [List.cons_append, unescape]
  rw [htake, hdrop, hcode]

/-- The letter that stands for a character is read back, whatever stands behind it. -/
theorem unescape_letter {c letter : Char} (h : lineLetters.letter? c = some letter) (rest : List Char) :
    unescape (letter :: rest) = some (c, rest) := by
  rcases letter?_lineLetters h with ⟨rfl, rfl⟩ | ⟨rfl, rfl⟩ | ⟨rfl, rfl⟩ | ⟨rfl, rfl⟩ | ⟨rfl, rfl⟩ <;>
    simp [unescape]

/-- An escaped character is read back, whatever stands behind it. -/
theorem quotedFrom_escape (text : List Char) (c : Char) (rest : List Char) :
    quotedFrom text (escape c ++ rest) = quotedFrom (c :: text) rest := by
  have hbackslash : ∀ tail left, unescape tail = some (c, left) →
      quotedFrom text ('\\' :: tail) = quotedFrom (c :: text) left := by
    intro tail left hread
    rw [quotedFrom, if_neg (by decide), if_pos rfl]
    split
    · rename_i d more hunescape
      rw [hread] at hunescape
      obtain ⟨rfl, rfl⟩ := Prod.mk.inj (Option.some.inj hunescape)
      simp
    · rename_i hunescape
      rw [hread] at hunescape
      exact absurd hunescape (by simp)
  cases hletter : lineLetters.letter? c with
  | some letter =>
      have hescape : escape c = ['\\', letter] := by simp [escape, Letters.escape, hletter]
      rw [hescape]
      exact hbackslash _ _ (unescape_letter hletter rest)
  | none =>
      obtain ⟨hquote, hslash, _⟩ := ne_of_letter?_eq_none hletter
      by_cases hcontrol : isControl c = true
      · have hescape : escape c = numbered c := by simp [escape, Letters.escape, hletter, hcontrol]
        rw [hescape, numbered]
        have hread := unescape_numbered c rest
        simpa using hbackslash _ _ hread
      · have hescape : escape c = [c] := by simp [escape, Letters.escape, hletter, hcontrol]
        rw [hescape, List.singleton_append, quotedFrom, if_neg hquote, if_neg hslash]

/-- **Quoted arguments are read back**, whatever stands behind the closing quote. -/
theorem readQuoted_escape (cs rest : List Char) :
    readQuoted (cs.flatMap escape ++ '"' :: rest) = some (cs, rest) := by
  have hgeneral : ∀ text, quotedFrom text (cs.flatMap escape ++ '"' :: rest) = some (text.reverse ++ cs, rest) := by
    induction cs with
    | nil => intro text; simp [quotedFrom]
    | cons c more ih =>
        intro text
        rw [List.flatMap_cons, List.append_assoc, quotedFrom_escape, ih (c :: text)]
        simp
  exact hgeneral []

/-! ## What a written argument looks like -/

/-- No character of a bare argument is a blank, a quote or the brace that data start with. -/
theorem of_isPlain {cs : List Char} (h : isPlain cs = true) :
    cs ≠ [] ∧ cs.head? ≠ some '-' ∧ ∀ c ∈ cs, isBlank c = false ∧ c ≠ '"' ∧ c ≠ '\x7b' := by
  simp only [isPlain, Bool.and_eq_true, bne_iff_ne, ne_eq, List.all_eq_true] at h
  obtain ⟨⟨hne, hdash⟩, hall⟩ := h
  refine ⟨by simpa using hne, hdash, fun c hc => ?_⟩
  have hchar := hall c hc
  simp only [Bool.not_eq_true', Bool.or_eq_false_iff, beq_eq_false_iff_ne, ne_eq] at hchar
  obtain ⟨⟨⟨⟨hblank, _⟩, hquote⟩, hbrace⟩, _⟩ := hchar
  exact ⟨hblank, hquote, hbrace⟩

/-- An escape holds no line feed. -/
theorem flat_escape (c : Char) : '\n' ∉ escape c := by
  cases hletter : lineLetters.letter? c with
  | some letter =>
      have hescape : escape c = ['\\', letter] := by simp [escape, Letters.escape, hletter]
      rw [hescape]
      rcases letter?_lineLetters hletter with ⟨_, rfl⟩ | ⟨_, rfl⟩ | ⟨_, rfl⟩ | ⟨_, rfl⟩ | ⟨_, rfl⟩ <;> decide
  | none =>
      obtain ⟨_, _, hfeed⟩ := ne_of_letter?_eq_none hletter
      by_cases hcontrol : isControl c = true
      · have hescape : escape c = numbered c := by simp [escape, Letters.escape, hletter, hcontrol]
        rw [hescape, numbered]
        intro hmem
        simp only [List.cons_append, List.mem_cons, List.mem_append, List.not_mem_nil, or_false] at hmem
        rcases hmem with hmem | hmem | hmem | hmem | hmem
        · exact absurd hmem (by decide)
        · exact absurd hmem (by decide)
        · exact absurd hmem (by decide)
        · exact absurd (isAlphanum_of_mem_toDigits hmem) (by decide)
        · exact absurd hmem (by decide)
      · have hescape : escape c = [c] := by simp [escape, Letters.escape, hletter, hcontrol]
        rw [hescape, List.mem_singleton]
        exact hfeed.symm

/-- A written argument is a line in itself. -/
theorem trimmed_writeChars (cs : List Char) : Trimmed (writeChars cs) := by
  by_cases hplain : isPlain cs = true
  · obtain ⟨hne, _, hall⟩ := of_isPlain hplain
    rw [writeChars, if_pos hplain]
    exact Trimmed.of_all hne fun c hc => (hall c hc).1
  · rw [writeChars, if_neg hplain]
    have hquote : Trimmed ['"'] := Trimmed.singleton (by decide)
    refine hquote.around hquote ?_
    intro hmem
    obtain ⟨c, _, hc⟩ := List.mem_flatMap.mp hmem
    exact flat_escape c hc

theorem trimmed_write (value : String) : Trimmed (write value).toList := by
  rw [write, String.toList_ofList]
  exact trimmed_writeChars value.toList

end Notation.Argument

end SearchLab
