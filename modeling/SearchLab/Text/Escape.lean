import SearchLab.Text.Hex
import SearchLab.Text.Visible

/-!
# Escapes

Between quotes a backslash and a letter stand for a character that is not written there as it is. A table says
which letter stands for which character; whoever writes a text and whoever reads it use the same one.

* `Letters.char?_of_letter?` — a letter is read back as the character that it was written for.
* `literal` — a text between quotes in which no character is lost to the eye.
-/

namespace SearchLab.Text

/-- Characters, each with the letter that stands for it behind a backslash. -/
abbrev Letters : Type := List (Char × Char)

/-- The letters that keep a text on one line. -/
def lineLetters : Letters := [('"', '"'), ('\\', '\\'), ('\n', 'n'), ('\r', 'r'), ('\t', 't')]

/-- The letters that quoted data may have. -/
def dataLetters : Letters := lineLetters ++ [('\x08', 'b'), ('\x0c', 'f')]

namespace Letters

/-- The letter of a character. -/
def letter? (letters : Letters) (c : Char) : Option Char := (letters.find? fun m => m.1 = c).map Prod.snd

/-- The character of a letter. -/
def char? (letters : Letters) (letter : Char) : Option Char :=
  (letters.find? fun m => m.2 = letter).map Prod.fst

/-- A character as its letter behind a backslash; `plain` writes those that have none. -/
def escape (letters : Letters) (plain : Char → List Char) (c : Char) : List Char :=
  match letters.letter? c with
  | some letter => ['\\', letter]
  | none => plain c

/-- A letter is read back as the character that it was written for, where no two characters share a letter. -/
theorem char?_of_letter? {letters : Letters} (distinct : (letters.map Prod.snd).Nodup) {c letter : Char}
    (h : letters.letter? c = some letter) : letters.char? letter = some c := by
  induction letters with
  | nil => simp [letter?] at h
  | cons m rest ih =>
    obtain ⟨d, l⟩ := m
    simp only [List.map_cons, List.nodup_cons] at distinct
    by_cases hd : d = c
    · have hl : l = letter := by simpa [letter?, hd] using h
      simp [char?, hl, hd]
    · have later : letter? rest c = some letter := by simpa [letter?, hd] using h
      have hl : l ≠ letter := by
        intro e
        obtain ⟨p, hp, rfl⟩ := Option.map_eq_some_iff.mp later
        exact distinct.1 (e ▸ List.mem_map_of_mem (List.mem_of_find?_eq_some hp))
      have := ih distinct.2 later
      simpa [char?, hl] using this

end Letters

/-- A character by its number between braces. -/
def numbered (c : Char) : List Char := '\\' :: 'u' :: '\x7b' :: Nat.toDigits 16 c.toNat ++ ['\x7d']

/-- A text between quotes, with its quotes, backslashes and hidden characters escaped. -/
def literal (s : String) : String :=
  let letters := lineLetters ++ [('\x00', '0')]
  let plain (c : Char) : List Char := if isVisible c then [c] else numbered c
  String.ofList ('"' :: s.toList.flatMap (letters.escape plain) ++ ['"'])

end SearchLab.Text
