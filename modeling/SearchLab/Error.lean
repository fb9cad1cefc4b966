import SearchLab.Json.Printer

/-!
# Errors

An error is a cause: which rule was broken, by what. Its `kind` is the class that callers tell apart, its
`message` the wording shown to a person. A program that is handed in from outside — the rules of a game, a
solver — may raise an error of its own: `raised`.

An `Edit` is a change of a state that may fail. It says what the state is in both cases, so a change that
fails half way through is visible as such.
-/

namespace SearchLab

/-- The class of an error. -/
inductive ErrorKind where
  | parsing
  | runtime
  | notImplemented
  | property
  | command
  | build
  | merge
  | queueEmpty
  | script
deriving DecidableEq, Repr

/-- The word for a class. -/
def ErrorKind.name : ErrorKind → String
  | .parsing => "Parsing"
  | .runtime => "Runtime"
  | .notImplemented => "NotImplemented"
  | .property => "Property"
  | .command => "Command"
  | .build => "Build"
  | .merge => "Merge"
  | .queueEmpty => "QueueEmpty"
  | .script => "Script"

/-- The two programs that a game search is handed in from outside. -/
inductive Fault where
  | rules
  | solver
deriving DecidableEq, Repr

/-- The word for a program that was handed in. -/
def Fault.name : Fault → String
  | .rules => "case"
  | .solver => "solver"

/-- The program that a word names. -/
def Fault.ofName? (word : String) : Option Fault := [Fault.rules, .solver].find? (fun f => f.name = word)

/-- A text that is no notation: where, why, and a line of valid notation of its sort. Lines and columns count
from 1; in column 0 the place within the line is not known. -/
structure ParsingError where
  line : Nat
  column : Nat
  detail : String
  sample : Option String := none
deriving DecidableEq, Repr

/-- The place, the reason and the sample in one sentence each. -/
def ParsingError.message (e : ParsingError) : String :=
  s!"Parsing error at line {e.line}, col {e.column}: {e.detail}." ++
    match e.sample with
    | some sample => s!" EXAMPLE SYNTAX: \"{sample}\"."
    | none => ""

/-- The kinds of the errors that a program from outside raises on its own. -/
inductive RaisedKind where
  | runtime
  | property
  | command
  | merge
  | script
deriving DecidableEq, Repr

/-- What went wrong. -/
inductive Error where
  /-- A text is no notation. -/
  | parsing (e : ParsingError)
  /-- A value stands where an object is needed. -/
  | objectExpected (found : String)
  /-- Two objects are nested too deeply to be merged. -/
  | mergeTooDeep
  /-- A queue has no front. -/
  | queueEmpty
  /-- A property may never be set. -/
  | propertyFixed (name : String)
  /-- A property has a closed set of values, and this is none of them. -/
  | propertyNotAmong (name : String) (options : List String)
  /-- A trigger can only be set to a value that counts as "yes". -/
  | propertyNotTriggered (name : String)
  /-- A property holds values of another type. -/
  | propertyOfType (name type : String)
  /-- A property has a test of its own, and the value fails it. -/
  | propertyCheckFailed (name : String)
  /-- An entity has no such property. -/
  | propertyMissing (name : String)
  /-- A value has another type than the edit needs. -/
  | valueOfType (type found : String)
  /-- A property that this sort of entity does not have was read. -/
  | notImplemented (feature : String)
  /-- A command that is done was executed. -/
  | alreadyDone (command : String)
  /-- A command that is not done was reverted. -/
  | notYetDone (command : String)
  | nothingToUndo
  | nothingToRedo
  /-- A position behind the end of the log. -/
  | seekTooFar (position count : Nat)
  /-- A command that holds no layer was to push it. -/
  | layerAlreadyPushed
  | noLayerToPop
  | noActiveLayer
  /-- An id is taken. -/
  | nodeExists (id : String)
  /-- No node has this id. -/
  | nodeMissing (id : String)
  /-- No node lives in this slot. -/
  | slotEmpty (slot : Nat)
  /-- No edge has this signed id. -/
  | edgeMissing (id : Int)
  /-- The nodes of a grid come with its size. -/
  | gridNodeAdded
  | gridNodeRemoved
  | goalRemoved
  | startRemoved
  | gridRequired
  /-- No cell has this id, among so many nodes. -/
  | cellMissing (id : String) (count : Nat)
  /-- A new size would drop the start or the goal. -/
  | resizeDropsEnd
  | startMissing
  | goalMissing
  /-- A solver recorded nothing. -/
  | nothingRecorded
  /-- The last step that a solver recorded ends nothing. -/
  | recordingUnfinished
  /-- A game tree has no node in this slot. -/
  | treeNodeMissing (slot : Nat)
  /-- The slots of a game tree's nodes no longer agree with those of its positions. -/
  | treeOutOfStep (slot : Nat) (id : String)
  /-- A position where somebody must move has no player. -/
  | playerMissing
  | badConfiguration
  | unwritableConfiguration
  /-- A program from outside was refused. -/
  | build (fault : Fault) (detail : String)
  /-- A program from outside raised an error of its own. -/
  | raised (kind : RaisedKind) (message : String)
deriving DecidableEq, Repr

namespace Error

/-- The class of an error. -/
def kind : Error → ErrorKind
  | parsing _ => .parsing
  | mergeTooDeep | raised .merge _ => .merge
  | queueEmpty => .queueEmpty
  | propertyFixed _ | propertyNotAmong _ _ | propertyNotTriggered _ | propertyOfType _ _
  | propertyCheckFailed _ | propertyMissing _ | valueOfType _ _ | raised .property _ => .property
  | notImplemented _ => .notImplemented
  | alreadyDone _ | notYetDone _ | nothingToUndo | nothingToRedo | seekTooFar _ _
  | layerAlreadyPushed | noLayerToPop | raised .command _ => .command
  | nothingRecorded | recordingUnfinished | playerMissing | raised .script _ => .script
  | build _ _ => .build
  | objectExpected _ | noActiveLayer | nodeExists _ | nodeMissing _ | slotEmpty _ | edgeMissing _
  | gridNodeAdded | gridNodeRemoved | goalRemoved | startRemoved | gridRequired | cellMissing _ _
  | resizeDropsEnd | startMissing | goalMissing | treeNodeMissing _ | treeOutOfStep _ _
  | badConfiguration | unwritableConfiguration | raised .runtime _ => .runtime

/-- The wording of an error. -/
def message : Error → String
  | parsing e => e.message
  | objectExpected found => s!"expected a data object, found {found}"
  | mergeTooDeep => "Found recursive structure while executing merge."
  | queueEmpty => "queue is empty"
  | propertyFixed name => s!"Property {name} is fixed and cannot be changed."
  | propertyNotAmong name options =>
    let listed := ", ".intercalate options
    s!"Property {name} must be one of {listed}"
  | propertyNotTriggered name => s!"Property {name} must be set to true to trigger an action."
  | propertyOfType name type => s!"Property {name} must be of type {type}"
  | propertyCheckFailed name => s!"Property {name} failed a custom check."
  | propertyMissing name => s!"Property not found: {name}"
  | valueOfType type found => s!"Expected a {type}, got {found}"
  | notImplemented feature => s!"Feature {feature} is not yet implemented."
  | alreadyDone command => s!"Command {command} already executed, cannot be re-executed."
  | notYetDone command => s!"Command {command} not yet executed, cannot be reverted."
  | nothingToUndo => "No more commands to undo."
  | nothingToRedo => "No more commands to redo."
  | seekTooFar position count => s!"Cannot seek to {position}, only {count} commands recorded."
  | layerAlreadyPushed => "Layer already pushed."
  | noLayerToPop => "No layer to pop."
  | noActiveLayer => "No graph layer is active."
  | nodeExists id => s!"Node with id \"{id}\" already exists in the graph."
  | nodeMissing id => s!"Node {id} does not exist in the graph."
  | slotEmpty slot => s!"Node slot {slot} is empty."
  | edgeMissing id => s!"Edge {id} does not exist in the graph."
  | gridNodeAdded => "Grid Graph nodes are created by the lattice, modify the grid size instead."
  | gridNodeRemoved => "Grid Graph nodes may not be deleted, modify the grid size instead."
  | goalRemoved => "Cannot delete the goal node of the graph. Set another node as the goal first."
  | startRemoved => "Cannot delete the start node of the graph. Set another node as the start first."
  | gridRequired => "Operation requires a grid graph."
  | cellMissing id count =>
    s!"Error during node fetching. Attempted to read node {id} in a graph with {count} nodes."
  | resizeDropsEnd => "Cannot remove start or end node when resizing the grid graph."
  | startMissing => "The graph has no start node."
  | goalMissing => "The graph has no goal node."
  | nothingRecorded => "No steps were recorded. Did you invoke failure or success?"
  | recordingUnfinished =>
    "Last step is not a terminal step. Ensure you finish solving by returning a success or failure."
  | treeNodeMissing slot => s!"Game tree has no node {slot}."
  | treeOutOfStep slot id =>
    s!"Game tree node {slot} for position \"{id}\" is out of step with its state slots."
  | playerMissing => "Invalid player for minimax algorithm."
  | badConfiguration => "invalid driver configuration"
  | unwritableConfiguration => "cannot write driver configuration"
  | build fault detail => s!"Error evaluating {fault.name} code: {detail}"
  | raised _ message => message

/-- What an error says beyond its class and its wording. -/
def details : Error → List (String × Json)
  | parsing e =>
    [ ("line", .nat e.line), ("column", .nat e.column), ("detail", .text e.detail),
      ("example", .ofOption .text e.sample) ]
  | build fault detail => [("fault", .text fault.name), ("detail", .text detail)]
  | _ => []

/-- An error as a value. -/
def toJson (e : Error) : Json :=
  .object ([("error", .text e.kind.name), ("message", .text e.message)] ++ e.details)

end Error

/-- A change of a state that may fail; it leaves a state behind in either case. -/
abbrev Edit (σ α : Type) : Type := EStateM Error σ α

/-- An edit that fails and changes nothing. -/
def Edit.fail {σ α : Type} (e : Error) : Edit σ α := fun s => .error e s

/-- An edit that fails where a value is missing. -/
def Edit.require {σ α : Type} (value : Option α) (e : Error) : Edit σ α :=
  match value with
  | some v => fun s => .ok v s
  | none => .fail e

/-- An edit of a part of a state. -/
def Edit.onPart {σ τ α : Type} (part : σ → τ) (replace : τ → σ → σ) (edit : Edit τ α) : Edit σ α := fun s =>
  match edit (part s) with
  | .ok v t => .ok v (replace t s)
  | .error e t => .error e (replace t s)

/-- An edit that only looks at the state. -/
def Edit.check {σ α : Type} (answer : σ → Except Error α) : Edit σ α := fun s =>
  match answer s with
  | .ok v => .ok v s
  | .error e => .error e s

end SearchLab
