import SearchLab.Decimal.Layout
import SearchLab.Json.Value
import SearchLab.Text.Escape

/-!
# Writing data values

The written form is compact: no blanks, members in order. In a text only the quote, the backslash and
U+0000 to U+001F are escaped; every other character stands for itself.
-/

namespace SearchLab.Json

/-- A character of a quoted text: where it has no letter of its own, a control by its four digits. -/
def escape : Char → List Char :=
  Text.dataLetters.escape fun c =>
    if c.toNat < 0x20 then ['\\', 'u', '0', '0', Text.hexDigit (c.toNat / 16), Text.hexDigit (c.toNat % 16)]
    else [c]

/-- A text between quotes. -/
def quote (s : String) : String :=
  String.ofList ('"' :: s.toList.flatMap escape ++ ['"'])

/-- A number: an integer by its digits, a double by the fewest that read back. -/
def writeNumber : Number → String
  | .int n => toString n
  | .float x => Decimal.write Decimal.jsonLayout x

mutual

/-- The written form of a value. -/
def write : Json → String
  | null => "null"
  | bool true => "true"
  | bool false => "false"
  | number n => writeNumber n
  | text s => quote s
  | list items => "[" ++ writeItems items ++ "]"
  | object ms => "\x7b" ++ writeMembers ms ++ "\x7d"

/-- The items of a list, divided by commas. -/
def writeItems : List Json → String
  | [] => ""
  | [v] => v.write
  | v :: vs => v.write ++ "," ++ writeItems vs

/-- The members of an object, divided by commas. -/
def writeMembers : List (String × Json) → String
  | [] => ""
  | [(k, v)] => quote k ++ ":" ++ v.write
  | (k, v) :: ms => quote k ++ ":" ++ v.write ++ "," ++ writeMembers ms

end

end SearchLab.Json
