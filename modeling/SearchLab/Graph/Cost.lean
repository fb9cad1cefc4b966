import SearchLab.Json.Value

/-!
# Costs

What a path costs is added up and compared. The programs of this library do that with doubles; the same
definitions run over any other `Cost`, for instance over exact numbers.
-/

namespace SearchLab

/-- Numbers that costs are measured in, with one that no path reaches. -/
class Cost (κ : Type) where
  ofInt : Int → κ
  ofFloat : Float → κ
  infinite : κ
  add : κ → κ → κ
  sub : κ → κ → κ
  mul : κ → κ → κ
  min : κ → κ → κ
  less : κ → κ → Bool
  atMost : κ → κ → Bool

namespace Cost

/-- A number of a data value as a cost. -/
def ofNumber {κ : Type} [Cost κ] : Number → κ
  | .int n => ofInt n
  | .float x => ofFloat x

/-- A count as a cost. -/
def ofNat {κ : Type} [Cost κ] (n : Nat) : κ := ofInt n

/-- Doubles as costs. The lesser of two of which one is no number is the other. -/
instance : Cost Float where
  ofInt := Float.ofInt
  ofFloat := id
  infinite := 1.0 / 0.0
  add := (· + ·)
  sub := (· - ·)
  mul := (· * ·)
  min x y := if x.isNaN then y else if y.isNaN || x ≤ y then x else y
  less x y := x < y
  atMost x y := x ≤ y

end Cost

/-- The length of the way over `dx` columns and `dy` rows where a straight step costs 1 and a diagonal one
`diagonal`: all diagonal steps that fit, unless a diagonal is no cheaper than the two straight steps around it. -/
def latticeDistance {κ : Type} [Cost κ] (dx dy diagonal : κ) : κ :=
  if Cost.atMost (Cost.ofNat 2) diagonal then Cost.add dx dy
  else
    let both := Cost.min dx dy
    Cost.add (Cost.add (Cost.sub dx both) (Cost.sub dy both)) (Cost.mul both diagonal)

end SearchLab
