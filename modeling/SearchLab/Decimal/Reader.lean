import SearchLab.Word

/-!
# Reading decimals

A decimal is a string of digits with a power of ten. Digits are read into natural numbers, so nothing is lost
before the one rounding to a double at the end.

* `nearest` — the double nearest to `mantissa · 10^exponent`;
* `number?` — a number as a line of notation spells it: sign, digits, point, exponent, or a word for infinity;
* `natural?`, `integer?` — whole numbers with an optional sign.
-/

namespace SearchLab.Decimal

/-- The value of a decimal digit. -/
def digit? (c : Char) : Option Nat :=
  if c.isDigit then some (c.toNat - '0'.toNat) else none

/-- The number that a string of digits spells, behind the digits of `start`. -/
def numberOf (start : Nat) (cs : List Char) : Nat :=
  cs.foldl (fun n c => 10 * n + (c.toNat - '0'.toNat)) start

/-- The double nearest to `mantissa · 10^exponent`. Beyond `10^310` all numbers round to infinity and below
`10^-330` to zero, so larger powers are not computed. -/
def nearest (mantissa : Nat) (exponent : Int) : Float :=
  if mantissa = 0 then 0.0
  else
    let magnitude := exponent + (Nat.log2 mantissa : Int) * 30103 / 100000
    if 311 < magnitude then 1.0 / 0.0
    else if magnitude < -330 then 0.0
    else Float.ofScientific mantissa (exponent < 0) exponent.natAbs

/-- A sign in front of a text, if there is one, and the text behind it. -/
def signed : List Char → Bool × List Char
  | '-' :: cs => (true, cs)
  | '+' :: cs => (false, cs)
  | cs => (false, cs)

/-- The exponent behind the digits of a number: nothing, or `e`, an optional sign and digits up to the end. -/
def exponent? : List Char → Option Int
  | [] => some 0
  | c :: cs =>
    if c = 'e' || c = 'E' then
      let (negative, ds) := signed cs
      if ds.isEmpty || !ds.all Char.isDigit then none
      else
        let n : Int := numberOf 0 ds
        some (if negative then -n else n)
    else none

/-- A number without its sign: `12`, `1.5`, `.5`, `5.`, each with an optional exponent. -/
def unsigned? (cs : List Char) : Option Float :=
  let whole := cs.takeWhile Char.isDigit
  let rest := cs.dropWhile Char.isDigit
  let (fraction, rest) := match rest with
    | '.' :: more => (more.takeWhile Char.isDigit, more.dropWhile Char.isDigit)
    | _ => ([], rest)
  if whole.isEmpty && fraction.isEmpty then none
  else (exponent? rest).map fun e => nearest (numberOf (numberOf 0 whole) fraction) (e - fraction.length)

/-- A number as text: `inf`, `infinity` and `nan` stand in any case for what is no finite number. -/
def number? (text : String) : Option Float :=
  let (negative, cs) := signed text.toList
  let magnitude? : Option Float :=
    let word := String.ofList (cs.map Char.toLower)
    if word = "inf" || word = "infinity" then some (1.0 / 0.0)
    else if word = "nan" then some (0.0 / 0.0)
    else unsigned? cs
  magnitude?.map fun x => if negative then -x else x

/-- The largest number that a count or a position holds. -/
def maxCount : Nat := Word.size - 1

/-- A natural number up to `maxCount`, with an optional plus sign. -/
def natural? (cs : List Char) : Option Nat :=
  let ds := match cs with
    | '+' :: ds => ds
    | _ => cs
  if ds.isEmpty || !ds.all Char.isDigit then none
  else
    let n := numberOf 0 ds
    if n ≤ maxCount then some n else none

/-- An integer between `-2^63` and `2^63 - 1`, with an optional sign. -/
def integer? (cs : List Char) : Option Int :=
  let (negative, ds) := signed cs
  if ds.isEmpty || !ds.all Char.isDigit then none
  else
    let n : Int := numberOf 0 ds
    let n := if negative then -n else n
    if Word.fits n then some n else none

end SearchLab.Decimal
