import SearchLab.Bag.Merge
import SearchLab.Graph.Edits
import SearchLab.Notation.Document
import SearchLab.Notation.Payload

/-!
# Free-form documents

    GENERIC
    NODE A (data)
    EDGE A B -b (data)
    START A
    GOAL B

A node that is named again takes the new data and style into its own. Statements with other commands are
passed over. `read` and `write` are the two directions.
-/

namespace SearchLab.Notation.FreeForm

/-- The node that an argument names. -/
def nodeArg (g : Graph) (s : Statement) (arg : Arg) (phase : String) : Except Error Nat :=
  match g.slot? arg.value with
  | some slot => .ok slot
  | none => refuse s.line arg.column s!"Invalid node ID in {phase}, received \"{arg.value}\""

/-- Takes data and style into a node. -/
def mergeInto (slot : Nat) (data style : Bag) : Edit Graph Unit := fun g =>
  match g.node? slot with
  | none => .ok () g.redraw
  | some n =>
    match Bag.mergeWith data n.data with
    | .error e merged => .error e (g.modifyNode slot fun n => { n with data := merged })
    | .ok _ mergedData =>
      match Bag.mergeWith style n.style with
      | .error e merged => .error e (g.modifyNode slot fun n => { n with data := mergedData, style := merged })
      | .ok _ mergedStyle => .ok () (g.modifyNode slot fun n => { n with data := mergedData, style := mergedStyle })

/-- Makes a graph what a statement says. -/
def apply (s : Statement) : Edit Graph Unit := do
  match s.command with
  | "NODE" =>
    let arg ← Edit.check fun _ => s.one "node setup"
    match (← get).slot? arg.value with
    | some slot => mergeInto slot s.data s.style
    | none =>
      let slot ← Graph.addNode arg.value s.data
      modify fun g => g.modifyNode slot fun n => { n with style := s.style }
  | "EDGE" =>
    let (a, b) ← Edit.check fun _ => s.two "edge setup"
    let source ← Edit.check fun g => nodeArg g s a "edge setup"
    let target ← Edit.check fun g => nodeArg g s b "edge setup"
    let id ← Graph.addEdge source target s.isBidirectional s.data
    modify fun g => g.modifyEdge id fun e => { e with style := s.style }
  | "START" =>
    let arg ← Edit.check fun _ => s.one "start node indication"
    let slot ← Edit.check fun g => nodeArg g s arg "start node indication"
    Graph.setStart (some slot)
  | "GOAL" =>
    let arg ← Edit.check fun _ => s.one "goal node indication"
    let slot ← Edit.check fun g => nodeArg g s arg "goal node indication"
    Graph.setGoal (some slot)
  | _ => return ()

/-- Makes a graph what a line says. -/
def applyLine (line : Line) : Edit Graph Unit := do
  match ← Edit.check fun _ => Statement.ofLine? line with
  | some s => apply s
  | none => return ()

/-- The graph that the lines behind a header describe. -/
def read (lines : List Line) : Except Error Graph :=
  match lines.forM applyLine Graph.empty with
  | .ok _ g => .ok g
  | .error e _ => .error e

/-- The written form of the id in a slot. -/
def writeId (g : Graph) (slot : Nat) : String := ((g.idOf? slot).map Argument.write).getD ""

/-- The line of a node. -/
def nodeLine (n : Node) : String :=
  joinLine ["NODE", Argument.write n.id] (payload? (lasting n.data) n.style)

/-- The line of an edge. -/
def edgeLine (g : Graph) (e : Edge) : String :=
  joinLine (["EDGE", writeId g e.source, writeId g e.target] ++ if e.bidirectional then ["-b"] else [])
    (payload? (lasting e.data) e.style)

/-- The document of a graph. -/
def write (g : Graph) : String :=
  let ends (word : String) (slot : Option Nat) : List String :=
    (slot.bind g.idOf?).toList.map fun id => joinLine [word, Argument.write id] none
  "\n".intercalate
    (["GENERIC"] ++ g.nodeList.map nodeLine ++ [""] ++ g.edgeList.map (edgeLine g) ++ [""] ++
      ends "START" g.start ++ ends "GOAL" g.goal)

end SearchLab.Notation.FreeForm
