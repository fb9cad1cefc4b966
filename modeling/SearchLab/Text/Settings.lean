import SearchLab.Text.Escape
import SearchLab.Word

/-!
# Settings

A text of settings has one on a line: a key, an equals sign, and an integer or a text. A number sign starts a
comment, and no key is set twice.

    tick_timeout_ms = 1_000
    max_expansions = "unlimited"  # no end

A key stands bare where letters, digits, `_` and `-` are enough, and else between quotes. Double quotes allow
for escapes, single ones do not. A text between three quotes of one kind may go on over several lines. `read`
gives the settings in order, or nothing where a line is none of these.
-/

namespace SearchLab.Text

/-- The value of a setting. -/
inductive Setting where
  | int (n : Int)
  | text (s : String)
deriving DecidableEq, Repr

namespace Settings

/-- The characters that separate the parts of a line. -/
def isGap (c : Char) : Bool := c = ' ' || c = '\t'

/-- The characters that a comment or a quoted text may hold. -/
def isPlain (c : Char) : Bool := c = '\t' || (0x20 ≤ c.toNat && c.toNat != 0x7F)

/-- The characters of a bare key. -/
def isKeyChar (c : Char) : Bool := c.isAlphanum || c = '_' || c = '-'

/-! ## Integers -/

/-- The value of a digit of a base. -/
def digit? (base : Nat) (c : Char) : Option Nat := (hexValue? c).filter (· < base)

/-- The number that begins as `n` and goes on with some digits, an underscore being allowed between two. -/
def moreDigits? (base n : Nat) : List Char → Option Nat
  | [] => some n
  | '_' :: c :: cs => (digit? base c).bind fun d => moreDigits? base (n * base + d) cs
  | c :: cs => (digit? base c).bind fun d => moreDigits? base (n * base + d) cs

/-- The number that some digits spell. -/
def digits? (base : Nat) : List Char → Option Nat
  | [] => none
  | c :: cs => (digit? base c).bind fun d => moreDigits? base d cs

/-- The number that decimal digits spell; a leading zero stands alone. -/
def decimal? : List Char → Option Nat
  | '0' :: _ :: _ => none
  | cs => digits? 10 cs

/-- The integer that a word spells: decimal with or without a sign, or in another base without one. -/
def integer? : List Char → Option Int
  | '0' :: 'x' :: cs => (digits? 16 cs).map Int.ofNat
  | '0' :: 'o' :: cs => (digits? 8 cs).map Int.ofNat
  | '0' :: 'b' :: cs => (digits? 2 cs).map Int.ofNat
  | '+' :: cs => (decimal? cs).map Int.ofNat
  | '-' :: cs => (decimal? cs).map fun n => -Int.ofNat n
  | cs => (decimal? cs).map Int.ofNat

/-! ## Texts -/

/-- A character in front of what was read behind it. -/
def prepend (c : Option Char) (rest : Option (List Char × List Char)) : Option (List Char × List Char) :=
  c.bind fun c => rest.map fun (text, left) => (c :: text, left)

/-- The text up to the closing double quote, and what is left behind it. -/
def readEscaped : List Char → Option (List Char × List Char)
  | [] => none
  | '"' :: cs => some ([], cs)
  | '\\' :: 'u' :: a :: b :: c :: d :: cs => prepend (charOfHex? [a, b, c, d]) (readEscaped cs)
  | '\\' :: 'U' :: a :: b :: c :: d :: e :: f :: g :: h :: cs =>
    prepend (charOfHex? [a, b, c, d, e, f, g, h]) (readEscaped cs)
  | '\\' :: c :: cs => prepend (dataLetters.char? c) (readEscaped cs)
  | c :: cs => prepend (if isPlain c && c != '\\' then some c else none) (readEscaped cs)

/-- The text up to the closing single quote, and what is left behind it. -/
def readVerbatim : List Char → Option (List Char × List Char)
  | [] => none
  | '\x27' :: cs => some ([], cs)
  | c :: cs => prepend (if isPlain c then some c else none) (readVerbatim cs)

/-! ## Texts of several lines -/

/-- A text of several lines behind its opening quotes, where a line end at once does not count. -/
def dropNewline : List Char → List Char
  | '\n' :: cs => cs
  | '\r' :: '\n' :: cs => cs
  | cs => cs

/-- Whether nothing but gaps stands before the end of the line. -/
def isLineEnd (cs : List Char) : Bool :=
  match cs.dropWhile isGap with
  | '\n' :: _ => true
  | '\r' :: '\n' :: _ => true
  | _ => false

/-- The text up to three double quotes, before which one or two more may belong to it. A backslash at the end
of a line takes away all blanks up to the next text; while `skip` holds they are being taken away. -/
def readLong (skip : Bool) : List Char → Option (List Char × List Char)
  | [] => none
  | '"' :: '"' :: '"' :: '"' :: '"' :: cs => some (['"', '"'], cs)
  | '"' :: '"' :: '"' :: '"' :: cs => some (['"'], cs)
  | '"' :: '"' :: '"' :: cs => some ([], cs)
  | '\\' :: 'u' :: a :: b :: c :: d :: cs => prepend (charOfHex? [a, b, c, d]) (readLong false cs)
  | '\\' :: 'U' :: a :: b :: c :: d :: e :: f :: g :: h :: cs =>
    prepend (charOfHex? [a, b, c, d, e, f, g, h]) (readLong false cs)
  | '\\' :: c :: cs =>
    if isLineEnd (c :: cs) then readLong true (c :: cs) else prepend (dataLetters.char? c) (readLong false cs)
  | '\r' :: '\n' :: cs => if skip then readLong true cs else prepend (some '\n') (readLong false cs)
  | c :: cs =>
    if skip && (isGap c || c = '\n') then readLong true cs
    else prepend (if (isPlain c || c = '\n') && c != '\\' then some c else none) (readLong false cs)

/-- The text up to three single quotes, before which one or two more may belong to it. -/
def readLongVerbatim : List Char → Option (List Char × List Char)
  | [] => none
  | '\x27' :: '\x27' :: '\x27' :: '\x27' :: '\x27' :: cs => some (['\x27', '\x27'], cs)
  | '\x27' :: '\x27' :: '\x27' :: '\x27' :: cs => some (['\x27'], cs)
  | '\x27' :: '\x27' :: '\x27' :: cs => some ([], cs)
  | '\r' :: '\n' :: cs => prepend (some '\n') (readLongVerbatim cs)
  | c :: cs => prepend (if isPlain c || c = '\n' then some c else none) (readLongVerbatim cs)

/-! ## Lines -/

/-- A key and what is left behind it. -/
def readKey : List Char → Option (List Char × List Char)
  | '"' :: cs => readEscaped cs
  | '\x27' :: cs => readVerbatim cs
  | cs => if (cs.takeWhile isKeyChar).isEmpty then none else some (cs.span isKeyChar)

/-- A value between quotes and what is left behind it. -/
def readText : List Char → Option (List Char × List Char)
  | '"' :: '"' :: '"' :: cs => readLong false (dropNewline cs)
  | '\x27' :: '\x27' :: '\x27' :: cs => readLongVerbatim (dropNewline cs)
  | '"' :: cs => readEscaped cs
  | '\x27' :: cs => readVerbatim cs
  | _ => none

/-- A value and what is left behind it. -/
def readValue (cs : List Char) : Option (Setting × List Char) :=
  match readText cs with
  | some (text, left) => some (.text (String.ofList text), left)
  | none =>
    let (word, left) := cs.span fun c => isKeyChar c || c = '+'
    ((integer? word).filter Word.fits).map fun n => (.int n, left)

/-- What is left behind the end of a line: a line feed, which may have a carriage return before it, or the end of
the text. -/
def endLine? : List Char → Option (List Char)
  | [] => some []
  | '\n' :: cs => some cs
  | '\r' :: '\n' :: cs => some cs
  | _ => none

/-- What is left behind a line on which nothing but a comment follows. -/
def restOfLine? (cs : List Char) : Option (List Char) :=
  match cs.dropWhile isGap with
  | '#' :: comment => endLine? (comment.dropWhile isPlain)
  | cs => endLine? cs

/-- The setting at the beginning of a text, and what is left behind its line. -/
def readSetting (cs : List Char) : Option ((String × Setting) × List Char) := do
  let (key, left) ← readKey (cs.dropWhile isGap)
  match left.dropWhile isGap with
  | '=' :: left =>
    let (value, left) ← readValue (left.dropWhile isGap)
    return ((String.ofList key, value), ← restOfLine? left)
  | _ => none

/-- The settings of a text. -/
def readAll (cs : List Char) : Option (List (String × Setting)) :=
  if cs.isEmpty then some []
  else
    match restOfLine? cs with
    | some left => if _h : left.length < cs.length then readAll left else none
    | none =>
      match readSetting cs with
      | some (setting, left) =>
        if _h : left.length < cs.length then (readAll left).map (setting :: ·) else none
      | none => none
termination_by cs.length

/-- The settings of a text in order. A byte order mark in front does not count. -/
def read (text : String) : Option (List (String × Setting)) :=
  let cs := match text.toList with
    | '\ufeff' :: cs => cs
    | cs => cs
  (readAll cs).filter fun settings => (settings.map Prod.fst).Nodup

end Settings

end SearchLab.Text
