import SearchLab.Error
import SearchLab.Text.Escape

/-!
# Undo and redo

A command is a named change that can be taken back, and it is done or not. A log lists commands; `current` is
how many of them should be done, `executed` how many are. Adding, undoing, redoing and seeking only move
`current`; `catchUp` runs commands until the target agrees with it.

A command that is added while others lie ahead of `current` cuts those off. The ones among them that are done
stay aside in `detached`, the one to take back first in front, until the next catch-up takes them back.

A command's body may hold a state of its own (what it replaced, a layer that it holds), which changes while
the target does, also when it fails.
-/

namespace SearchLab

/-- Changes `β` of targets `σ` that can be taken back. Both the body and the target may change, also when the
change fails. -/
class Reversible (β σ : Type) where
  apply : Edit (β × σ) Unit
  revert : Edit (β × σ) Unit

/-- A named change that is done or not. -/
structure Command (β : Type) where
  name : String
  done : Bool := false
  body : β
deriving Repr

namespace Command

variable {β σ : Type}

/-- Does a command that is not done. It counts as done only when it did not fail. -/
def execute [Reversible β σ] : Edit (Command β × σ) Unit := fun (c, target) =>
  if c.done then .error (.alreadyDone c.name) (c, target)
  else
    match Reversible.apply (c.body, target) with
    | .ok _ (body, target) => .ok () ({ c with body, done := true }, target)
    | .error e (body, target) => .error e ({ c with body }, target)

/-- Takes back a command that is done. -/
def revert [Reversible β σ] : Edit (Command β × σ) Unit := fun (c, target) =>
  if !c.done then .error (.notYetDone c.name) (c, target)
  else
    match Reversible.revert (c.body, target) with
    | .ok _ (body, target) => .ok () ({ c with body, done := false }, target)
    | .error e (body, target) => .error e ({ c with body }, target)

/-- A command for the eye of a programmer: its name and whether it is done. -/
def describe (c : Command β) : String :=
  s!"Command \x7b name: {Text.literal c.name}, done: {c.done} \x7d"

end Command

/-- What a catch-up did to a command. -/
inductive Direction where
  | executed
  | reverted
deriving DecidableEq, Repr

/-- The word for a direction. -/
def Direction.name : Direction → String
  | .executed => "executed"
  | .reverted => "reverted"

/-- A command that a catch-up ran: its place in the log, its name, and what was done. -/
structure Touched where
  index : Nat
  name : String
  direction : Direction
deriving DecidableEq, Repr

/-- What a catch-up did to a command, as a value. -/
def Touched.toJson (t : Touched) : Json := .list [.nat t.index, .text t.name, .text t.direction.name]

/-- A log of commands. -/
structure Log (β : Type) where
  commands : Array (Command β) := #[]
  /-- How many commands should be done. -/
  current : Nat := 0
  /-- How many commands are done. -/
  executed : Nat := 0
  /-- Commands cut off the log that are still done, each with the place that it had. -/
  detached : List (Nat × Command β) := []

namespace Log

variable {β σ : Type}

/-- The number of commands in the log. -/
def size (log : Log β) : Nat := log.commands.size

/-- Whether a command behind `current` is left. -/
def canRedo (log : Log β) : Bool := log.current < log.size

/-- Whether a command before `current` is left. -/
def canUndo (log : Log β) : Bool := 0 < log.current

/-- Cuts off the commands behind `current`; those of them that are done, and so still to be taken back, are
put aside in the order in which they must be taken back. -/
def truncate (log : Log β) : Log β :=
  let dropped := (List.range' log.current (log.executed - log.current)).filterMap fun index =>
    log.commands[index]?.map fun c => (index, c)
  { commands := log.commands.take log.current
    current := log.current
    executed := min log.executed log.current
    detached := log.detached ++ dropped.reverse }

/-- Adds a command at `current` and cuts off what lay behind. -/
def add (log : Log β) (command : Command β) : Log β :=
  let log := log.truncate
  { log with commands := log.commands.push command, current := log.current + 1 }

/-- Moves `current` one command back. -/
def undo : Edit (Log β) Unit := fun log =>
  if log.canUndo then .ok () { log with current := log.current - 1 } else .error .nothingToUndo log

/-- Moves `current` one command forward. -/
def redo : Edit (Log β) Unit := fun log =>
  if log.canRedo then .ok () { log with current := log.current + 1 } else .error .nothingToRedo log

/-- Moves `current` to a place in the log. -/
def seek (position : Nat) : Edit (Log β) Unit := fun log =>
  if log.size < position then .error (.seekTooFar position log.size) log
  else .ok () { log with current := position }

/-- Takes back the command that was put aside first. -/
def revertDetached [Reversible β σ] : Edit (Log β × σ) Touched := fun (log, target) =>
  match log.detached with
  | [] => .error .nothingToUndo (log, target)
  | (index, c) :: rest =>
    match Command.revert (c, target) with
    | .ok _ (_, target) => .ok ⟨index, c.name, .reverted⟩ ({ log with detached := rest }, target)
    | .error e (c, target) => .error e ({ log with detached := (index, c) :: rest }, target)

/-- Does the first command that is not done. -/
def executeNext [Reversible β σ] : Edit (Log β × σ) Touched := fun (log, target) =>
  let index := log.executed
  match log.commands[index]? with
  | none => .error .nothingToRedo (log, target)
  | some c =>
    match Command.execute (c, target) with
    | .ok _ (c, target) =>
      .ok ⟨index, c.name, .executed⟩
        ({ log with commands := log.commands.setIfInBounds index c, executed := index + 1 }, target)
    | .error e (c, target) => .error e ({ log with commands := log.commands.setIfInBounds index c }, target)

/-- Takes back the last command that is done. -/
def revertLast [Reversible β σ] : Edit (Log β × σ) Touched := fun (log, target) =>
  let index := log.executed - 1
  match log.commands[index]? with
  | none => .error .nothingToUndo (log, target)
  | some c =>
    match Command.revert (c, target) with
    | .ok _ (c, target) =>
      .ok ⟨index, c.name, .reverted⟩
        ({ log with commands := log.commands.setIfInBounds index c, executed := index }, target)
    | .error e (c, target) => .error e ({ log with commands := log.commands.setIfInBounds index c }, target)

/-- Runs an edit so many times, or until it fails, and lists what it said. -/
def times {τ α : Type} (edit : Edit τ α) : Nat → Edit τ (List α)
  | 0 => pure []
  | n + 1 => do
    let first ← edit
    let others ← times edit n
    return first :: others

/-- Brings the target to `current`: takes back what was put aside, and then does or takes back one command
after the other. A command that fails ends the catch-up; what ran before it stays. -/
def catchUp [Reversible β σ] : Edit (Log β × σ) (List Touched) := fun s =>
  let run : Edit (Log β × σ) (List Touched) := do
    let dropped ← times revertDetached s.1.detached.length
    let done ← times executeNext (s.1.current - s.1.executed)
    let undone ← times revertLast (s.1.executed - s.1.current)
    return dropped ++ done ++ undone
  run s

/-- Where a log stands, as a value. -/
def toJson (log : Log β) : Json :=
  .object
    [ ("log", .list (log.commands.toList.map fun c => .list [.text c.name, .bool c.done])),
      ("current", .nat log.current), ("executed", .nat log.executed),
      ("detached", .bool !log.detached.isEmpty), ("can_undo", .bool log.canUndo),
      ("can_redo", .bool log.canRedo), ("empty", .bool log.commands.isEmpty) ]

end Log

end SearchLab
