/-!
# Blank and control characters

A text of the notation is cut at **blanks**: the characters with the Unicode property `White_Space`.
Characters that a reader cannot see are **controls**: U+0000 to U+001F and U+007F to U+009F.

* `isBlank`, `isControl` — the two classes;
* `trim` — a text without the blanks at its two ends;
* `words` — the maximal runs of characters that are no blanks, each with the column where it starts.
-/

namespace SearchLab.Text

/-- The code points with the property `White_Space` above U+00FF. -/
def wideBlanks : List Nat :=
  [0x1680, 0x2000, 0x2001, 0x2002, 0x2003, 0x2004, 0x2005, 0x2006, 0x2007, 0x2008, 0x2009, 0x200A,
   0x2028, 0x2029, 0x202F, 0x205F, 0x3000]

/-- Blanks are the characters with the Unicode property `White_Space`. -/
def isBlank (c : Char) : Bool :=
  let n := c.toNat
  (0x09 ≤ n && n ≤ 0x0D) || n == 0x20 || n == 0x85 || n == 0xA0 || (0x100 ≤ n && wideBlanks.contains n)

/-- Controls are U+0000 to U+001F and U+007F to U+009F. -/
def isControl (c : Char) : Bool :=
  let n := c.toNat
  n ≤ 0x1F || (0x7F ≤ n && n ≤ 0x9F)

/-- Every character that core counts as white space is a blank. -/
theorem isBlank_of_isWhitespace {c : Char} (h : c.isWhitespace = true) : isBlank c = true := by
  simp only [Char.isWhitespace, Bool.or_eq_true, decide_eq_true_eq] at h
  rcases h with ((rfl | rfl) | rfl) | rfl <;> decide

/-- A text without the blanks at its end. -/
def trimEnd (cs : List Char) : List Char :=
  (cs.reverse.dropWhile isBlank).reverse

/-- A text without the blanks at its two ends. -/
def trim (cs : List Char) : List Char :=
  trimEnd (cs.dropWhile isBlank)

/-- The words of a text that starts in column `column`: `word` holds, newest first, the characters
read so far of the word that started in column `start`. -/
def wordsFrom (column start : Nat) (word : List Char) : List Char → List (Nat × List Char)
  | [] => if word.isEmpty then [] else [(start, word.reverse)]
  | c :: cs =>
    if isBlank c then
      if word.isEmpty then wordsFrom (column + 1) start [] cs
      else (start, word.reverse) :: wordsFrom (column + 1) start [] cs
    else wordsFrom (column + 1) (if word.isEmpty then column else start) (c :: word) cs

/-- The maximal runs of non-blank characters, each with the 1-based column of its first character. -/
def words (cs : List Char) : List (Nat × List Char) :=
  wordsFrom 1 1 [] cs

end SearchLab.Text
