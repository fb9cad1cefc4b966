import SearchLab.Graph.Inspect
import SearchLab.History

/-!
# Changes of the layers

While a search is replayed, graphs lie on each other in layers, and the top one is the graph that is shown. A
`Change` is what a command of the replay does: push a graph, mark how the search ended, open or block a node, set
properties, or any other pair of edits. Most changes concern the top layer.

A change remembers what it needs to be taken back: the graph that it pushed comes back into it, and a node that
it opened or blocked gets back the value it had.
-/

namespace SearchLab

/-- Graphs on top of each other, the top one first. -/
abbrev Layers : Type := List Graph

/-- An edit of the top layer. -/
def onTop {α : Type} (edit : Edit Graph α) : Edit Layers α := fun layers =>
  match layers with
  | [] => .error .noActiveLayer []
  | g :: below =>
    match edit g with
    | .ok v g => .ok v (g :: below)
    | .error e g => .error e (g :: below)

/-- A property that is set, and the value it had before. -/
structure PropertyChange where
  target : Target
  property : String
  old : Json
  new : Json

/-- What a command does to the layers. -/
inductive Change where
  /-- Pushes the graph that it holds; taken back, it holds the graph again. -/
  | layer (held : Option Graph)
  /-- Marks the search as ended. -/
  | outcome (o : Outcome)
  /-- Opens a blocked node and blocks an open one. While done, it knows what the node's data said before. -/
  | toggle (id : String) (previous : Option (Option Json))
  /-- Sets properties one after the other. -/
  | properties (changes : List PropertyChange)
  /-- Does one edit and is taken back by the other. -/
  | custom (forward backward : Edit Layers Unit)

namespace Change

/-- Two edits of the top layer. -/
def onTopLayer (forward backward : Edit Graph Unit) : Change := .custom (onTop forward) (onTop backward)

/-- Opens or blocks a node in its data and says what they said before. -/
def flipNode (id : String) : Edit Graph (Option Json) := do
  let slot ← Edit.check fun g => g.slotOf id
  let g ← get
  let n ← Edit.require (g.node? slot) (.slotEmpty slot)
  set (g.modifyNode slot fun n => { n with data := n.data.set "traversable" (.bool (!n.isTraversable)) })
  return n.data.get? "traversable"

/-- Gives the data of a node back what they said before, where that is known. -/
def unflipNode (id : String) (previous : Option (Option Json)) : Edit Graph Unit := do
  let slot ← Edit.check fun g => g.slotOf id
  modify fun g => g.modifyNode slot fun n =>
    match previous with
    | none => n
    | some none => { n with data := n.data.erase "traversable" }
    | some (some value) => { n with data := n.data.set "traversable" value }

/-- Completes the edges around a node, on a grid. -/
def refresh (id : String) : Edit Graph Unit := do
  let slot ← Edit.check fun g => g.slotOf id
  if (← get).isGrid then Graph.completeEdges slot

/-- Sets the new values of some changes in order. -/
def setNew (changes : List PropertyChange) : Edit Graph Unit :=
  changes.forM fun c => do
    let _ ← Graph.setProperty c.target c.property c.new

/-- Sets the old values of some changes, the last one first. -/
def setOld (changes : List PropertyChange) : Edit Graph Unit :=
  changes.reverse.forM fun c => do
    let _ ← Graph.setProperty c.target c.property c.old

/-- Marks how a search ended; a search that has not ended is not marked. -/
def markOutcome (outcome : Outcome) : Edit Graph Unit :=
  modify fun g => if outcome = .none then g else g.setOutcome outcome

/-- Takes such a mark away. -/
def unmarkOutcome (outcome : Outcome) : Edit Graph Unit :=
  modify fun g => if outcome = .none then g else g.setOutcome .none

/-- An edit of the layers that leaves the change as it is. -/
def keeping (change : Change) (edit : Edit Layers Unit) (layers : Layers) :
    EStateM.Result Error (Change × Layers) Unit :=
  match edit layers with
  | .ok _ layers => .ok () (change, layers)
  | .error e layers => .error e (change, layers)

/-- Does a change. -/
def apply : Edit (Change × Layers) Unit := fun (change, layers) =>
  match change with
  | .layer none => .error .layerAlreadyPushed (change, layers)
  | .layer (some g) => .ok () (.layer none, g :: layers)
  | .outcome o => keeping change (onTop (markOutcome o)) layers
  | .toggle id _ =>
    match onTop (flipNode id) layers with
    | .error e layers => .error e (change, layers)
    | .ok previous layers => keeping (.toggle id (some previous)) (onTop (refresh id)) layers
  | .properties changes => keeping change (onTop (setNew changes)) layers
  | .custom forward _ => keeping change forward layers

/-- Takes a change back. -/
def revert : Edit (Change × Layers) Unit := fun (change, layers) =>
  match change with
  | .layer held =>
    match layers with
    | [] => .error .noLayerToPop (.layer held, [])
    | g :: below => .ok () (.layer (some g), below)
  | .outcome o => keeping change (onTop (unmarkOutcome o)) layers
  | .toggle id previous =>
    match onTop (unflipNode id previous) layers with
    | .error e layers => .error e (change, layers)
    | .ok _ layers => keeping (.toggle id none) (onTop (refresh id)) layers
  | .properties changes => keeping change (onTop (setOld changes)) layers
  | .custom _ backward => keeping change backward layers

instance : Reversible Change Layers where
  apply := apply
  revert := revert

/-- The command that pushes a graph. -/
def pushLayer (g : Graph) : Command Change := { name := "Set Graph", body := .layer (some g) }

/-- The command that marks a search as successful. -/
def success : Command Change := { name := "Mark Graph Successful", body := .outcome .success }

/-- The command that marks a search as failed. -/
def failure : Command Change := { name := "Mark Graph Failed", body := .outcome .failure }

/-- The command that opens or blocks a node. -/
def toggleNode (id : String) : Command Change := { name := "Toggle Traverse", body := .toggle id none }

/-- The command that sets properties. -/
def setProperties (changes : List PropertyChange) : Command Change :=
  { name := "Change Property", body := .properties changes }

end Change

end SearchLab
