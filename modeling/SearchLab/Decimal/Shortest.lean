/-!
# The fewest digits that read back

A finite positive double is `m · 2^q`. The real numbers that round to it form an interval around it,
whose ends belong to it exactly when `m` is even. Among the decimals `0.d₁…dₙ · 10^k` inside that
interval, `shortest` takes one with the least number `n` of digits, and of two such neighbours the
nearer one; `Tie` says which neighbour wins when both are equally near.

All tests are comparisons of natural numbers: the value, the ends of its interval and the decimal grid
are written over one common denominator.
-/

namespace SearchLab.Decimal

/-- Which of two equally near decimals is taken. -/
inductive Tie where
  /-- The one whose last digit is even. -/
  | toEven
  /-- The larger one. -/
  | up
deriving DecidableEq, Repr

/-- A positive double over a denominator: `value / den` is the number, and the reals from `low / den` to
`high / den` round to it, the ends among them iff `closed`. -/
structure Interval where
  low : Nat
  value : Nat
  high : Nat
  den : Nat
  closed : Bool
deriving DecidableEq, Repr

/-- The interval of `m · 2^q`, where `wide` says that the gap below is as wide as the gap above.
It is not at a power of two, below which the doubles lie twice as dense. -/
def Interval.ofParts (m : Nat) (q : Int) (wide : Bool) : Interval :=
  let scale := Nat.pow 2 q.toNat
  { low := (4 * m - if wide then 2 else 1) * scale
    value := 4 * m * scale
    high := (4 * m + 2) * scale
    den := 4 * Nat.pow 2 (-q).toNat
    closed := m % 2 == 0 }

/-- The interval of the double with the bits `bits`, its sign left out of account. -/
def Interval.ofBits (bits : Nat) : Interval :=
  let fraction : Nat := bits % Nat.pow 2 52
  let exponent : Nat := bits / Nat.pow 2 52 % Nat.pow 2 11
  if exponent = 0 then .ofParts fraction (-1074) true
  else .ofParts (Nat.pow 2 52 + fraction) ((exponent : Int) - 1075) (fraction != 0 || exponent == 1)

/-- Whether `point / pointDen` rounds to the number. -/
def Interval.holds (i : Interval) (point pointDen : Nat) : Bool :=
  let p := point * i.den
  if i.closed then i.low * pointDen ≤ p && p ≤ i.high * pointDen
  else i.low * pointDen < p && p < i.high * pointDen

/-- A decimal `0.d₁d₂…dₙ · 10^point`, given by the number that its digits spell. -/
structure Digits where
  number : Nat
  point : Int
deriving DecidableEq, Repr

/-- The least `k` with `value / den < 10^k`, for a positive value: counted up from the digits before the
point, or down over the zeros behind it. -/
def magnitude (value den : Nat) : Int :=
  if den ≤ value then ((Nat.toDigits 10 (value / den)).length : Int)
  else
    match (List.range 400).find? (fun j => den ≤ value * Nat.pow 10 (j + 1)) with
    | some j => -(j : Int)
    | none => -400

/-- The decimal with `n` digits that the interval admits and that is nearest to the number: one of the
number's two neighbours on the grid of step `10^(k-n)`. -/
def withDigits? (tie : Tie) (i : Interval) (k : Int) (n : Nat) : Option Digits :=
  let step := k - n
  let up := Nat.pow 10 step.toNat
  let down := Nat.pow 10 (-step).toNat
  -- On this grid the number is `value * down / (den * up)`.
  let floor := i.value * down / (i.den * up)
  let rest := i.value * down % (i.den * up)
  let below := i.holds (floor * up) down
  let above := i.holds ((floor + 1) * up) down
  let aboveIsNearer :=
    match compare (2 * rest) (i.den * up) with
    | .lt => false
    | .gt => true
    | .eq => match tie with
      | .toEven => floor % 2 == 1
      | .up => true
  if below && !(above && aboveIsNearer) then some ⟨floor, k⟩
  else if above then
    -- The upper neighbour of `99…9` has a digit more: it is the next power of ten.
    if floor + 1 = Nat.pow 10 n then some ⟨1, k + 1⟩ else some ⟨floor + 1, k⟩
  else none

/-- The fewest digits that read back as the positive number of the interval; seventeen always do. -/
def Interval.shortest (tie : Tie) (i : Interval) : Digits :=
  let k := magnitude i.value i.den
  match (List.range 17).findSome? (fun n => withDigits? tie i k (n + 1)) with
  | some digits => digits
  | none => ⟨0, k⟩

end SearchLab.Decimal
