import SearchLab.Decimal.Reader
import SearchLab.Json.Value
import SearchLab.Text.Escape

/-!
# Reading data values

The reader is an automaton: `State.step` takes one character, and a text is read by running it over the
characters from the left and asking `State.finish` for the value at the end. A state holds the objects and
lists that are still open, innermost first, and a `Mode` that says what may come next.

A text that is no value is refused with a `Fault` and the number of bytes read up to it, the byte at fault
included; `Position.at` turns that number into a line and a column of bytes.

* `Json.read` — the value that a text spells, or where and why it spells none;
* `run_append` — reading may be resumed: a text in two parts is read as the first and then the second.
-/

namespace SearchLab.Json

/-- Why a text spells no value. -/
inductive Fault where
  | keyExpected
  | colonExpected
  | commaOrBraceExpected
  | commaOrBracketExpected
  | trailingComma
  | valueExpected
  | badWord
  | badNumber
  | numberTooLarge
  | badEscape
  | missingLowSurrogate
  | loneSurrogate
  | controlCharacter
  | tooDeep
  | trailingCharacters
  | endInValue
  | endInObject
  | endInList
  | endInText
deriving DecidableEq, Repr

/-- The wording of a fault. -/
def Fault.message : Fault → String
  | .keyExpected => "key must be a string"
  | .colonExpected => "expected \x60:\x60"
  | .commaOrBraceExpected => "expected \x60,\x60 or \x60\x7d\x60"
  | .commaOrBracketExpected => "expected \x60,\x60 or \x60]\x60"
  | .trailingComma => "trailing comma"
  | .valueExpected => "expected value"
  | .badWord => "expected ident"
  | .badNumber => "invalid number"
  | .numberTooLarge => "number out of range"
  | .badEscape => "invalid escape"
  | .missingLowSurrogate => "unexpected end of hex escape"
  | .loneSurrogate => "lone leading surrogate in hex escape"
  | .controlCharacter => "control character (\\u0000-\\u001F) found while parsing a string"
  | .tooDeep => "recursion limit exceeded"
  | .trailingCharacters => "trailing characters"
  | .endInValue => "EOF while parsing a value"
  | .endInObject => "EOF while parsing an object"
  | .endInList => "EOF while parsing a list"
  | .endInText => "EOF while parsing a string"

/-- A place in a text: the line, counted from 1, and the number of bytes of it up to that place. -/
structure Position where
  line : Nat
  column : Nat
deriving DecidableEq, Repr

/-- The place behind the first `count` bytes of a text, which starts at `here`. -/
def Position.at (here : Position) (count : Nat) : List Char → Position
  | [] => here
  | c :: cs =>
    if count = 0 then here
    else if c = '\n' then Position.at ⟨here.line + 1, 0⟩ (count - 1) cs
    else if count ≤ c.utf8Size then ⟨here.line, here.column + count⟩
    else Position.at ⟨here.line, here.column + c.utf8Size⟩ (count - c.utf8Size) cs

/-- What comes next where a value may stand. -/
inductive Expect where
  /-- A value only: at the start, and behind a colon. -/
  | value
  /-- The first item of a list, or its end. -/
  | firstItem
  /-- An item behind a comma. -/
  | nextItem
deriving DecidableEq, Repr

/-- How much of a number has been read; the comment names what was read last. -/
inductive NumberPart where
  /-- The minus sign. -/
  | minus
  /-- A leading zero. -/
  | zero
  /-- A digit before the point. -/
  | whole
  /-- The point. -/
  | point
  /-- A digit behind the point. -/
  | fraction
  /-- The letter of the exponent. -/
  | letter
  /-- The sign of the exponent. -/
  | sign
  /-- A digit of the exponent. -/
  | exponent
deriving DecidableEq, Repr

/-- A number that is being read: `± digits · 10^(± exponent - places)`. -/
structure Numeral where
  negative : Bool
  digits : Nat := 0
  places : Nat := 0
  exponentNegative : Bool := false
  exponent : Nat := 0
  part : NumberPart
deriving DecidableEq, Repr

/-- How far an escape in a text has been read. `high` is the first half of a pair, when that has been read. -/
inductive Escape where
  /-- No escape is open. -/
  | none
  /-- The backslash. -/
  | backslash
  /-- `count` bytes of four hexadecimal digits, of value `value` unless one of them was no digit. -/
  | hex (high : Option Nat) (count value : Nat) (good : Bool)
  /-- The first half of a pair: a backslash must follow. -/
  | pair (high : Nat)
  /-- The backslash behind the first half of a pair: the letter `u` must follow. -/
  | pairLetter (high : Nat)
deriving DecidableEq, Repr

/-- What may come next. -/
inductive Mode where
  | value (expect : Expect)
  /-- A key, or the end of the object where `first` says that it may be empty. -/
  | key (first : Bool)
  | colon
  /-- Inside a text, of which `chars` holds the characters so far, the last one first. -/
  | text (isKey : Bool) (chars : List Char) (escape : Escape)
  /-- Inside a word, of which `rest` is missing. -/
  | word (rest : List Char) (value : Json)
  | number (numeral : Numeral)
  /-- Behind a value. -/
  | after (value : Json)

/-- An object or list that is still open. The items of a list stand last one first. -/
inductive Frame where
  | list (items : List Json)
  | object (members : List (String × Json)) (key : String)

/-- A state of the reader: what may come next, what is open, and the bytes read so far. -/
structure State where
  mode : Mode
  stack : List Frame
  offset : Nat

/-- A fault, and the number of bytes up to it. -/
structure Failure where
  fault : Fault
  offset : Nat
deriving DecidableEq, Repr

/-- The nesting of objects and lists at which a text is refused. -/
def maxNesting : Nat := 128

/-- The largest exponent that is written out; a larger one makes any number but zero too large. -/
def maxExponent : Nat := Nat.pow 2 31 - 1

/-- Blanks between the parts of a value. -/
def isGap (c : Char) : Bool :=
  c = ' ' || c = '\n' || c = '\t' || c = '\r'

/-- The value of a number that has been read to its end, if it can end here and a double can hold it. -/
def Numeral.value (n : Numeral) : Except Fault Json :=
  let asFloat :=
    let x := Decimal.nearest n.digits ((if n.exponentNegative then -(n.exponent : Int) else n.exponent) - n.places)
    if x.isInf then .error .numberTooLarge else .ok (.number (.float (if n.negative then -x else x)))
  match n.part with
  | .zero | .whole =>
    if n.negative then
      if n.digits = 0 || Word.half < n.digits then asFloat else .ok (.int (-(n.digits : Int)))
    else if n.digits < Word.size then .ok (.nat n.digits)
    else asFloat
  | .fraction | .exponent => asFloat
  | _ => .error .badNumber

/-- The number behind one more of its characters, or `none` where that character is no part of it. -/
def Numeral.step (n : Numeral) (c : Char) : Option (Except Fault Numeral) :=
  let digit := c.toNat - '0'.toNat
  let isPoint := c = '.'
  let isLetter := c = 'e' || c = 'E'
  match n.part with
  | .minus =>
    if c.isDigit then
      some (.ok { n with digits := digit, part := if c = '0' then .zero else .whole })
    else some (.error .badNumber)
  | .zero =>
    if c.isDigit then some (.error .badNumber)
    else if isPoint then some (.ok { n with part := .point })
    else if isLetter then some (.ok { n with part := .letter })
    else none
  | .whole =>
    if c.isDigit then some (.ok { n with digits := 10 * n.digits + digit })
    else if isPoint then some (.ok { n with part := .point })
    else if isLetter then some (.ok { n with part := .letter })
    else none
  | .point =>
    if c.isDigit then
      some (.ok { n with digits := 10 * n.digits + digit, places := n.places + 1, part := .fraction })
    else some (.error .badNumber)
  | .fraction =>
    if c.isDigit then some (.ok { n with digits := 10 * n.digits + digit, places := n.places + 1 })
    else if isLetter then some (.ok { n with part := .letter })
    else none
  | .letter =>
    if c.isDigit then some (.ok { n with exponent := digit, part := .exponent })
    else if c = '+' then some (.ok { n with part := .sign })
    else if c = '-' then some (.ok { n with exponentNegative := true, part := .sign })
    else some (.error .badNumber)
  | .sign =>
    if c.isDigit then some (.ok { n with exponent := digit, part := .exponent })
    else some (.error .badNumber)
  | .exponent =>
    if c.isDigit then
      let exponent := 10 * n.exponent + digit
      if exponent ≤ maxExponent then some (.ok { n with exponent })
      else if n.digits = 0 || n.exponentNegative then some (.ok { n with exponent := maxExponent })
      else some (.error .numberTooLarge)
    else none

namespace State

/-- A refusal whose last byte is the first one of the next character. -/
def refuse {α : Type} (s : State) (fault : Fault) : Except Failure α :=
  .error ⟨fault, s.offset + 1⟩

/-- The state behind the next character. -/
def move (s : State) (c : Char) (mode : Mode) : State :=
  { s with mode, offset := s.offset + c.utf8Size }

/-- The state in which the innermost open object or list has ended as `value`. -/
def close (s : State) (c : Char) (stack : List Frame) (value : Json) : State :=
  { mode := .after value, stack, offset := s.offset + c.utf8Size }

/-- The state behind the bracket or brace that opens a list or an object. -/
def opened (s : State) (c : Char) (frame : Frame) (mode : Mode) : Except Failure State :=
  if s.stack.length + 1 < maxNesting then
    .ok { mode, stack := frame :: s.stack, offset := s.offset + c.utf8Size }
  else s.refuse .tooDeep

/-- The character that starts a value. -/
def startValue (s : State) (c : Char) : Except Failure State :=
  if c = '[' then s.opened c (.list []) (.value .firstItem)
  else if c = '\x7b' then s.opened c (.object [] "") (.key true)
  else if c = '"' then .ok (s.move c (.text false [] .none))
  else if c = 'n' then .ok (s.move c (.word ['u', 'l', 'l'] .null))
  else if c = 't' then .ok (s.move c (.word ['r', 'u', 'e'] (.bool true)))
  else if c = 'f' then .ok (s.move c (.word ['a', 'l', 's', 'e'] (.bool false)))
  else if c = '-' then .ok (s.move c (.number { negative := true, part := .minus }))
  else if c.isDigit then
    .ok (s.move c (.number
      { negative := false, digits := c.toNat - '0'.toNat, part := if c = '0' then .zero else .whole }))
  else s.refuse .valueExpected

/-- A character where a value may stand. -/
def beforeValue (s : State) (expect : Expect) (c : Char) : Except Failure State :=
  if isGap c then .ok (s.move c s.mode)
  else if c = ']' then
    match expect, s.stack with
    | .firstItem, .list items :: stack => .ok (s.close c stack (.list items.reverse))
    | .nextItem, _ => s.refuse .trailingComma
    | _, _ => s.refuse .valueExpected
  else s.startValue c

/-- A character where a key may stand. -/
def beforeKey (s : State) (first : Bool) (c : Char) : Except Failure State :=
  if isGap c then .ok (s.move c s.mode)
  else if c = '"' then .ok (s.move c (.text true [] .none))
  else if c = '\x7d' then
    match first, s.stack with
    | true, .object members _ :: stack => .ok (s.close c stack (.object members))
    | _, _ => s.refuse .trailingComma
  else s.refuse .keyExpected

/-- A character behind a value: it goes on with what the value stands in. -/
def behindValue (s : State) (value : Json) (c : Char) : Except Failure State :=
  if isGap c then .ok (s.move c (.after value))
  else
    match s.stack with
    | [] => s.refuse .trailingCharacters
    | .list items :: stack =>
      if c = ',' then .ok { s.move c (.value .nextItem) with stack := .list (value :: items) :: stack }
      else if c = ']' then .ok (s.close c stack (.list (value :: items).reverse))
      else s.refuse .commaOrBracketExpected
    | .object members key :: stack =>
      let members := store key value members
      if c = ',' then .ok { s.move c (.key false) with stack := .object members key :: stack }
      else if c = '\x7d' then .ok (s.close c stack (.object members))
      else s.refuse .commaOrBraceExpected

/-- A text has ended: it is the key of the innermost object, or a value. -/
def endText (s : State) (isKey : Bool) (chars : List Char) (c : Char) : State :=
  let text := String.ofList chars.reverse
  match isKey, s.stack with
  | true, .object members _ :: stack => { s.move c .colon with stack := .object members text :: stack }
  | _, _ => s.move c (.after (.text text))

/-- Four hexadecimal digits have been read: a character, the first half of a pair, or its second half. -/
def endHex (s : State) (isKey : Bool) (chars : List Char) (high : Option Nat) (value : Nat) (c : Char) :
    Except Failure State :=
  let isLow := 0xDC00 ≤ value && value ≤ 0xDFFF
  match high with
  | none =>
    if isLow then s.refuse .loneSurrogate
    else if 0xD800 ≤ value && value ≤ 0xDBFF then .ok (s.move c (.text isKey chars (.pair value)))
    else .ok (s.move c (.text isKey (Char.ofNat value :: chars) .none))
  | some first =>
    if isLow then
      let point := 0x10000 + (first - 0xD800) * 0x400 + (value - 0xDC00)
      .ok (s.move c (.text isKey (Char.ofNat point :: chars) .none))
    else s.refuse .loneSurrogate

/-- The character that a letter behind a backslash stands for. -/
def plainEscape? (c : Char) : Option Char := if c = '/' then some c else Text.dataLetters.char? c

/-- A character inside a text. -/
def insideText (s : State) (isKey : Bool) (chars : List Char) (escape : Escape) (c : Char) :
    Except Failure State :=
  match escape with
  | .none =>
    if c = '"' then .ok (s.endText isKey chars c)
    else if c = '\\' then .ok (s.move c (.text isKey chars .backslash))
    else if c.toNat < 0x20 then s.refuse .controlCharacter
    else .ok (s.move c (.text isKey (c :: chars) .none))
  | .backslash =>
    if c = 'u' then .ok (s.move c (.text isKey chars (.hex none 0 0 true)))
    else
      match plainEscape? c with
      | some d => .ok (s.move c (.text isKey (d :: chars) .none))
      | none => s.refuse .badEscape
  | .hex high count value good =>
    let read := count + c.utf8Size
    let digit := Text.hexValue? c
    let value := 16 * value + digit.getD 0
    let good := good && digit.isSome
    if read < 4 then .ok (s.move c (.text isKey chars (.hex high read value good)))
    else if good then s.endHex isKey chars high value c
    else .error ⟨.badEscape, s.offset + (4 - count)⟩
  | .pair high =>
    if c = '\\' then .ok (s.move c (.text isKey chars (.pairLetter high)))
    else s.refuse .missingLowSurrogate
  | .pairLetter high =>
    if c = 'u' then .ok (s.move c (.text isKey chars (.hex (some high) 0 0 true)))
    else s.refuse .missingLowSurrogate

/-- The state behind one more character. -/
def step (s : State) (c : Char) : Except Failure State :=
  match s.mode with
  | .value expect => s.beforeValue expect c
  | .key first => s.beforeKey first c
  | .colon =>
    if isGap c then .ok (s.move c .colon)
    else if c = ':' then .ok (s.move c (.value .value))
    else s.refuse .colonExpected
  | .text isKey chars escape => s.insideText isKey chars escape c
  | .word [] value => s.behindValue value c
  | .word (d :: rest) value =>
    if c = d then .ok (s.move c (if rest.isEmpty then .after value else .word rest value))
    else s.refuse .badWord
  | .number numeral =>
    match numeral.step c with
    | some (.ok longer) => .ok (s.move c (.number longer))
    | some (.error fault) => s.refuse fault
    | none =>
      match numeral.value with
      | .ok value => s.behindValue value c
      | .error fault => .error ⟨fault, s.offset⟩
  | .after value => s.behindValue value c

/-- The value that has been read when the text ends here. -/
def finish (s : State) : Except Failure Json :=
  let stop {α : Type} (fault : Fault) : Except Failure α := .error ⟨fault, s.offset⟩
  let complete (value : Json) : Except Failure Json :=
    match s.stack with
    | [] => .ok value
    | .list _ :: _ => stop .endInList
    | .object _ _ :: _ => stop .endInObject
  match s.mode with
  | .value .firstItem => stop .endInList
  | .value _ => stop .endInValue
  | .key first => stop (if first then .endInObject else .endInValue)
  | .colon => stop .endInObject
  | .text _ _ _ => stop .endInText
  | .word [] value => complete value
  | .word _ _ => stop .endInValue
  | .number numeral =>
    match numeral.value with
    | .ok value => complete value
    | .error .badNumber => stop .endInValue
    | .error fault => stop fault
  | .after value => complete value

/-- The state before the first character. -/
def start : State := { mode := .value .value, stack := [], offset := 0 }

/-- The state behind a text. -/
def run (s : State) (cs : List Char) : Except Failure State :=
  cs.foldlM step s

/-- A text in two parts is read as the first and then the second. -/
theorem run_append (s : State) (cs ds : List Char) : s.run (cs ++ ds) = (s.run cs).bind (·.run ds) := by
  simp only [run, List.foldlM_append]
  rfl

end State

/-- A fault with the place where it was found. -/
structure SyntaxError where
  fault : Fault
  position : Position
deriving DecidableEq, Repr

/-- The wording of a fault and its place. -/
def SyntaxError.message (e : SyntaxError) : String :=
  s!"{e.fault.message} at line {e.position.line} column {e.position.column}"

/-- The value that a text spells. -/
def read (text : String) : Except SyntaxError Json :=
  let cs := text.toList
  match (State.start.run cs).bind State.finish with
  | .ok value => .ok value
  | .error failure => .error ⟨failure.fault, Position.at ⟨1, 0⟩ failure.offset cs⟩

end SearchLab.Json
