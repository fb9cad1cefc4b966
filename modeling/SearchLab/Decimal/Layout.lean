import SearchLab.Decimal.Shortest
import SearchLab.Word

/-!
# How a double is written

A `Layout` holds the choices that a written form leaves open: how a tie between two shortest decimals goes,
between which powers of ten the point is written in place, whether a whole number shows a fraction, and the
words for what is no finite number. `write` lays out the digits of `Decimal.Shortest` by it.

* `jsonLayout` — the form in data: `1.0`, `0.00001`, `1e+16`, `1.25e-6`;
* `plainLayout` — the form in a line of notation: `1`, `1.5`, never an exponent.
-/

namespace SearchLab.Decimal

/-- The choices of a written form. The number `0.d₁d₂… · 10^k` is written with the point in place when `k` lies
within `inPlace`, and otherwise as `d₁.d₂…e±x`. -/
structure Layout where
  tie : Tie
  inPlace : Option (Int × Int)
  showsFraction : Bool

/-- Numbers in data: an exponent from 1e16 up and below 1e-5, and always a sign of being no integer. -/
def jsonLayout : Layout := ⟨.toEven, some (-4, 16), true⟩

/-- Numbers in lines: the point is always in place, and a whole number has none. -/
def plainLayout : Layout := ⟨.up, none, false⟩

/-- Digits with the point in place. -/
def Layout.plain (layout : Layout) (digits : List Char) (point : Int) : List Char :=
  let count : Int := digits.length
  if count ≤ point then
    digits ++ List.replicate (point - count).toNat '0' ++ (if layout.showsFraction then ['.', '0'] else [])
  else if 0 < point then
    digits.take point.toNat ++ '.' :: digits.drop point.toNat
  else
    '0' :: '.' :: List.replicate (-point).toNat '0' ++ digits

/-- Digits with an exponent, whose sign is always written. -/
def scientific (digits : List Char) (point : Int) : List Char :=
  let mantissa := match digits with
    | [] => []
    | [d] => [d]
    | d :: ds => d :: '.' :: ds
  let exponent := point - 1
  mantissa ++ 'e' :: (if exponent < 0 then '-' else '+') :: Nat.toDigits 10 exponent.natAbs

/-- A positive finite number, given by the digits found for it. -/
def Layout.digits (layout : Layout) (d : Digits) : List Char :=
  let shown := Nat.toDigits 10 d.number
  match layout.inPlace with
  | some (least, most) =>
    if least ≤ d.point && d.point ≤ most then layout.plain shown d.point else scientific shown d.point
  | none => layout.plain shown d.point

/-- A double in the given layout; the sign of zero is shown. -/
def write (layout : Layout) (x : Float) : String :=
  if x.isNaN then "NaN"
  else
    let bits := x.toBits.toNat
    let sign := if bits / Word.half = 1 then ['-'] else []
    let magnitude := bits % Word.half
    if x.isInf then String.ofList (sign ++ ['i', 'n', 'f'])
    else if magnitude = 0 then String.ofList (sign ++ if layout.showsFraction then ['0', '.', '0'] else ['0'])
    else String.ofList (sign ++ layout.digits ((Interval.ofBits magnitude).shortest layout.tie))

end SearchLab.Decimal
