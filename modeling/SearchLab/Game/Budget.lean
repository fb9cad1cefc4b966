import SearchLab.Json.Value

/-!
# Budgets

A budget says how often something may be done: without end, or so many times. `spend?` takes one unit out of it.
-/

namespace SearchLab.Game

/-- How often something may be done. -/
inductive Budget where
  | unlimited
  | limited (units : Nat)
deriving DecidableEq, Repr, Inhabited

namespace Budget

/-- Whether nothing is left. -/
def isExhausted : Budget → Bool
  | limited 0 => true
  | _ => false

/-- The budget with one unit less, if one is left. -/
def spend? : Budget → Option Budget
  | unlimited => some unlimited
  | limited 0 => none
  | limited (n + 1) => some (limited n)

/-- The budget after an attempt to take a unit out of it. -/
def spent (b : Budget) : Budget := b.spend?.getD b

/-- The units left, where they are counted. -/
def remaining? : Budget → Option Nat
  | unlimited => none
  | limited n => some n

/-- The wording of a budget. -/
def display : Budget → String
  | unlimited => "unlimited"
  | limited n => toString n

/-- A budget as a value. -/
def toJson : Budget → Json
  | unlimited => .text "unlimited"
  | limited n => .nat n

/-- The budget that a word names, in upper or lower case. -/
def ofWord? (word : String) : Option Budget :=
  if word.toList.map Char.toLower = "unlimited".toList then some unlimited else none

/-- The budget that a value spells: a word or a count. -/
def ofJson? : Json → Option Budget
  | .text word => ofWord? word
  | other => other.nat?.map limited

/-- The refusal of a word that names no budget. -/
def refusal (word : String) : String :=
  s!"invalid budget \"{word}\", expected \"unlimited\" or a non-negative integer"

/-- A unit can be spent unless nothing is left. -/
theorem spend?_eq_none_iff (b : Budget) : b.spend? = none ↔ b.isExhausted = true := by
  cases b with
  | unlimited => simp [spend?, isExhausted]
  | limited n => cases n <;> simp [spend?, isExhausted]

end Budget

end SearchLab.Game
