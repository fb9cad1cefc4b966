import SearchLab.Decimal.Layout
import SearchLab.Decimal.Reader

/-!
# Diagonal steps

A grid says what a diagonal step costs. Four costs have names; a negative cost means that there are no diagonal
steps. A number equal to a named cost is that mode, so a mode and its number are one and the same.
-/

namespace SearchLab

/-- What a diagonal step costs. -/
inductive Diagonal where
  /-- There are no diagonal steps. -/
  | disabled
  /-- A diagonal step costs as much as a straight one. -/
  | chebyshev
  /-- A diagonal step costs its length. -/
  | euclidean
  /-- A diagonal step costs as much as the two straight ones around it. -/
  | manhattan
  /-- Any other cost. -/
  | custom (value : Float)

namespace Diagonal

/-- The cost as a number. -/
def value : Diagonal → Float
  | disabled => -1.0
  | chebyshev => 1.0
  | euclidean => 1.4142135623730951
  | manhattan => 2.0
  | custom v => v

/-- The modes that have names. -/
def named : List (String × Diagonal) :=
  [("disabled", disabled), ("manhattan", manhattan), ("euclidean", euclidean), ("chebyshev", chebyshev)]

/-- The mode of a cost: a named one if the cost is equal to its cost. -/
def ofValue (v : Float) : Diagonal :=
  match named.find? (fun m => m.2.value == v) with
  | some m => m.2
  | none => custom v

/-- The mode that a text names, in any case, or the mode of the number that it spells. -/
def ofText? (text : String) : Option Diagonal :=
  let lowered := text.map Char.toLower
  match named.find? (fun m => m.1 = lowered) with
  | some m => some m.2
  | none =>
    match Decimal.number? lowered with
    | some v => if v.isNaN then none else some (ofValue v)
    | none => none

/-- The name of the mode with this cost. -/
def name? (d : Diagonal) : Option String :=
  (named.find? (fun m => m.2.value == d.value)).map Prod.fst

/-- Whether there are diagonal steps. -/
def isEnabled (d : Diagonal) : Bool := 0.0 ≤ d.value

/-- What an estimate counts for a diagonal step: without diagonal steps, more than any path. -/
def effectiveCost (d : Diagonal) : Float :=
  if d.isEnabled then d.value else 1.0 / 0.0

/-- The name of the mode, or else its cost. -/
def display (d : Diagonal) : String :=
  d.name?.getD (Decimal.write Decimal.plainLayout d.value)

end Diagonal

end SearchLab
