import SearchLab.Capability
import SearchLab.Notation.Reader
import SearchLab.Replay.Change

/-!
# Recording a search

A solver tells its search to a recorder, call by call. Each call becomes a step: a value to be shown and mostly a
command, which is replayed later. Nothing runs while a search is recorded; a recorder therefore keeps for every
property the value that the steps so far will give it, so that each step knows the value it replaces.
-/

namespace SearchLab

/-- A step of a search: what is shown, the command that replays it, and whether it ends the search. -/
structure Step where
  shown : Json
  command : Option (Command Change)
  isTerminal : Bool

/-- A search that is being recorded, the last step and the graph pushed last first. -/
structure Recorder where
  base : Graph
  created : List Graph := []
  reversedSteps : List Step := []
  /-- The values that the steps so far will have given to properties of the graph pushed last. -/
  pending : List ((Target × String) × Json) := []

namespace Recorder

/-- The graph that the next step will be replayed on. -/
def graph (r : Recorder) : Graph := r.created.head?.getD r.base

/-- The steps so far. -/
def steps (r : Recorder) : List Step := r.reversedSteps.reverse

/-- Adds a step. -/
def push (r : Recorder) (shown : Json) (command : Option (Command Change)) (isTerminal : Bool) : Recorder :=
  { r with reversedSteps := ⟨shown, command, isTerminal⟩ :: r.reversedSteps }

/-- Records that the search failed. -/
def failure (shown : Json) : Edit Recorder Bool := fun r =>
  .ok false (r.push shown (some Change.failure) true)

/-- Records that the search reached its goal. -/
def success (shown : Json) : Edit Recorder Bool := fun r =>
  .ok true (r.push shown (some Change.success) true)

/-- Records a step that only shows something. -/
def log (shown : Json) : Edit Recorder Unit := fun r => .ok () (r.push shown none false)

/-- The value that a property will have when the steps so far have been replayed. -/
def valueOf (r : Recorder) (target : Target) (property : String) : Except Error Json :=
  match r.pending.find? (fun p => p.1 = (target, property)) with
  | some (_, value) => .ok value
  | none => r.graph.getProperty target property

/-- The changes that a step makes, each with the value that it replaces before any of them is made. -/
def changesOf (r : Recorder) : List (Target × String × Json) → Except Error (List PropertyChange)
  | [] => .ok []
  | (target, property, new) :: rest =>
    match r.valueOf target property with
    | .error e => .error e
    | .ok old =>
      match r.changesOf rest with
      | .error e => .error e
      | .ok changes => .ok (⟨target, property, old, new⟩ :: changes)

/-- Records a step that sets properties. -/
def alter (news : List (Target × String × Json)) (shown : Json) : Edit Recorder Unit := fun r =>
  match r.changesOf news with
  | .error e => .error e r
  | .ok changes =>
    let pending := changes.foldl (fun pending c => ((c.target, c.property), c.new) :: pending) r.pending
    .ok () ({ r with pending }.push shown (some (Change.setProperties changes)) false)

/-- Records how far the search has come with a node. -/
def setState (state : String) (slot : Nat) (shown : Json) : Edit Recorder Unit := fun r =>
  match r.graph.node? slot with
  | none => .error (.slotEmpty slot) r
  | some n => alter [(.node n.id, "state", .text state)] shown r

/-- Records that a node was seen. -/
def visit : Nat → Json → Edit Recorder Unit := setState "visited"

/-- Records that the edges of a node were followed. -/
def expand : Nat → Json → Edit Recorder Unit := setState "expanded"

/-- Records whether nodes and edges are pointed at. -/
def point (on : Bool) (targets : List Target) (shown : Json) : Edit Recorder Unit :=
  alter (targets.map fun t => (t, "highlighted", .bool on)) shown

/-- Records that the search goes on on another graph. -/
def create (g : Graph) (shown : Json) : Edit Recorder Unit := fun r =>
  .ok () ({ r with created := g :: r.created, pending := [] }.push shown (some (Change.pushLayer g)) false)

/-- Records that the search goes on on the graph of a document. -/
def createFromText (text : String) (shown : Json) : Edit Recorder Graph := do
  let g ← Edit.check fun _ => Notation.read text
  create g shown
  return g

end Recorder

/-- A search from a start to a goal that tells itself to a recorder; it says whether the goal was reached. -/
abbrev Solver : Type := Graph → (start goal : Nat) → Edit Recorder Bool

/-- The methods that a solver from outside offers. -/
def solverChecklist : List Method := [⟨"constructor", 1⟩, ⟨"solve", 2⟩]

/-- A solver, provided that it offers what is asked of it. -/
def checkSolver (solver : Solver) (offer : Offer) : Except Error Solver :=
  match refusal? solverChecklist offer "the Solver class" with
  | some detail => .error (.build .solver detail)
  | none => .ok solver

/-- The steps of a solver on a graph, between its start and its goal. The last one must end the search. -/
def solutionSteps (solver : Solver) (g : Graph) : Except Error (List Step) :=
  match g.start, g.goal with
  | none, _ => .error .startMissing
  | _, none => .error .goalMissing
  | some start, some goal =>
    match solver g start goal { base := g } with
    | .error e _ => .error e
    | .ok _ r =>
      match r.reversedSteps with
      | [] => .error .nothingRecorded
      | last :: _ => if last.isTerminal then .ok r.steps else .error .recordingUnfinished

end SearchLab
