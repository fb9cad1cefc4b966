import SearchLab.Text.Escape

/-!
# Arguments

An argument of a line stands bare where it can, and else between quotes. Inside quotes a backslash escapes: `\n`,
`\r` and `\t` are what they are elsewhere, `\u` with hexadecimal digits in braces is a character by its number,
and behind a backslash any other character is itself.

* `write` — the written form of an argument;
* `readQuoted` — the text up to the closing quote, and what is left behind it.
-/

namespace SearchLab.Notation.Argument

/-- The character with a number in hexadecimal digits, which may have a plus sign in front. -/
def codePoint? (digits : List Char) : Option Char :=
  Text.charOfHex? (match digits with
    | '+' :: more => more
    | _ => digits)

/-- Whether a character stands before the brace that closes a number. -/
def isDigitSlot (c : Char) : Bool := c != '\x7d'

/-- The character that the text behind a backslash stands for, and the text left. -/
def unescape : List Char → Option (Char × List Char)
  | [] => none
  | 'n' :: cs => some ('\n', cs)
  | 'r' :: cs => some ('\r', cs)
  | 't' :: cs => some ('\t', cs)
  | 'u' :: '\x7b' :: cs =>
    match cs.dropWhile isDigitSlot, codePoint? (cs.takeWhile isDigitSlot) with
    | _ :: rest, some c => some (c, rest)
    | _, _ => some ('u', '\x7b' :: cs)
  | c :: cs => some (c, cs)

/-- Reading an escape leaves less text. -/
theorem unescape_length {cs rest : List Char} {c : Char} (h : unescape cs = some (c, rest)) :
    rest.length < cs.length := by
  unfold unescape at h
  split at h
  · simp at h
  · simp at h; simp [h.2]
  · simp at h; simp [h.2]
  · simp at h; simp [h.2]
  · rename_i ds
    split at h
    · rename_i hd _
      have := (List.dropWhile_suffix isDigitSlot (l := ds)).length_le
      simp only [Option.some.injEq, Prod.mk.injEq] at h
      simp only [hd, List.length_cons] at this ⊢
      rw [← h.2]
      omega
    · simp at h; simp [← h.2]
  · simp at h; simp [h.2]

/-- The text up to the quote that closes it, and what is left behind; `text` holds what was read, last first. -/
def quotedFrom (text : List Char) (cs : List Char) : Option (List Char × List Char) :=
  match cs with
  | [] => none
  | c :: rest =>
    if c = '"' then some (text.reverse, rest)
    else if c = '\\' then
      match _h : unescape rest with
      | some (d, left) => quotedFrom (d :: text) left
      | none => none
    else quotedFrom (c :: text) rest
termination_by cs.length
decreasing_by
  · have := unescape_length _h
    simp only [List.length_cons]
    omega
  · simp

/-- The text behind an opening quote, up to the closing one, and what is left behind that. -/
def readQuoted (cs : List Char) : Option (List Char × List Char) := quotedFrom [] cs

/-- Reading on to a closing quote leaves less text. -/
theorem quotedFrom_length {text cs value rest : List Char} (h : quotedFrom text cs = some (value, rest)) :
    rest.length < cs.length := by
  fun_induction quotedFrom text cs with
  | case1 => simp at h
  | case2 => simp at h; simp [h.2]
  | case3 _ _ _ _ hu _ ih =>
    have := unescape_length hu
    have := ih h
    simp only [List.length_cons]
    omega
  | case4 => simp at h
  | case5 _ _ _ _ _ ih =>
    have := ih h
    simp only [List.length_cons]
    omega

/-- Whether an argument is read back as it is when it stands bare. -/
def isPlain (cs : List Char) : Bool :=
  !cs.isEmpty && cs.head? != some '-' &&
    cs.all fun c => !(Text.isBlank c || Text.isControl c || c == '"' || c == '\x7b' || c == '\\')

/-- A character between quotes: where it has no letter of its own, a control by its number. -/
def escape : Char → List Char :=
  Text.lineLetters.escape fun c => if Text.isControl c then Text.numbered c else [c]

/-- The characters of the written form. -/
def writeChars (cs : List Char) : List Char :=
  if isPlain cs then cs else '"' :: cs.flatMap escape ++ ['"']

/-- The written form of an argument. -/
def write (value : String) : String := String.ofList (writeChars value.toList)

end SearchLab.Notation.Argument
