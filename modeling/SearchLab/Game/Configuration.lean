import SearchLab.Error
import SearchLab.Game.Budget
import SearchLab.Text.Settings

/-!
# Configuration

How much a tick of a search may do: its time in milliseconds, the positions that it may expand, and the steps
that it may evaluate. `ofText` and `toText` are the two directions of its written form, in which a number has to
fit into 64 bits with a sign.
-/

namespace SearchLab.Game

/-- The limits of a tick. -/
structure Configuration where
  /-- The time of each of its two slices in milliseconds. -/
  tickTimeout : Nat := 1000
  maxExpansions : Budget := .unlimited
  maxSteps : Budget := .unlimited
deriving DecidableEq, Repr

namespace Configuration

/-- The budget that a setting gives. -/
def budget? : Text.Setting → Option Budget
  | .text word => Budget.ofWord? word
  | .int n => if 0 ≤ n then some (.limited n.toNat) else none

/-- The configuration changed by a setting. -/
def set? (c : Configuration) (setting : String × Text.Setting) : Option Configuration :=
  match setting with
  | ("tick_timeout_ms", .int n) => if 0 ≤ n then some { c with tickTimeout := n.toNat } else none
  | ("max_expansions", value) => (budget? value).map fun maxExpansions => { c with maxExpansions }
  | ("max_algorithm_steps", value) => (budget? value).map fun maxSteps => { c with maxSteps }
  | _ => none

/-- The configuration that a text of settings gives; what it leaves out has its usual value. -/
def ofText (text : String) : Except Error Configuration :=
  match (Text.Settings.read text).bind fun settings => settings.foldlM set? {} with
  | some c => .ok c
  | none => .error .badConfiguration

/-- The written form of a count. -/
def writeCount? (n : Nat) : Option String := if n < Word.half then some (toString n) else none

/-- The written form of a budget. -/
def writeBudget? : Budget → Option String
  | .unlimited => some "\"unlimited\""
  | .limited n => writeCount? n

/-- A configuration as a text of settings. -/
def toText (c : Configuration) : Except Error String :=
  match writeCount? c.tickTimeout, writeBudget? c.maxExpansions, writeBudget? c.maxSteps with
  | some timeout, some expansions, some steps =>
    .ok s!"tick_timeout_ms = {timeout}\nmax_expansions = {expansions}\nmax_algorithm_steps = {steps}\n"
  | _, _, _ => .error .unwritableConfiguration

end Configuration

end SearchLab.Game
