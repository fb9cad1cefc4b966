import SearchLab.Graph.Basic

/-!
# Editing graphs

Each edit says which flags it raises: an edit of the structure makes the index out of date, and whatever can be
seen asks for a redraw. An edit that is refused changes nothing, unless its comment says otherwise.
-/

namespace SearchLab.Graph

/-! ## Flags -/

/-- Marks the index as out of date. -/
def unindex (g : Graph) : Graph := { g with index := none }

/-- Asks for a redraw. -/
def redraw (g : Graph) : Graph := { g with needsRedraw := true }

/-- Notes that the graph has been drawn. -/
def drawn (g : Graph) : Graph := { g with needsRedraw := false }

/-- After an edit of the structure the index is out of date and the graph has to be drawn anew. -/
def restructured (g : Graph) : Graph := { g with index := none, needsRedraw := true }

/-! ## Nodes -/

/-- Adds a node in the next slot. -/
def insertNode (id : String) (x y : Nat) (data : Bag) : Edit Graph Nat := fun g =>
  if g.slots.contains id then .error (.nodeExists id) g
  else
    let slot := g.nodes.size
    .ok slot
      { g with
        slots := g.slots.insert id slot
        nodes := g.nodes.push (some { slot, id, x, y, data })
        needsRedraw := true }

/-- Adds a node to a free-form graph. -/
def addNode (id : String) (data : Bag) : Edit Graph Nat := fun g =>
  if g.isGrid then .error .gridNodeAdded g else insertNode id 0 0 data g

/-- Drops the node in a slot with every edge at it; it is no longer start or goal. -/
def dropNode (g : Graph) (slot : Nat) : Graph :=
  match g.node? slot with
  | none => g
  | some n =>
    { g with
      nodes := g.nodes.setIfInBounds slot none
      slots := g.slots.erase n.id
      edges := g.edges.map fun e => e.filter fun e => !e.touches slot
      index := none
      needsRedraw := true
      start := if g.start = some slot then none else g.start
      goal := if g.goal = some slot then none else g.goal }

/-- Removes a node from a free-form graph, unless it is the goal or the start; says whether there was one. -/
def removeNode (slot : Nat) : Edit Graph Bool := fun g =>
  if g.isGrid then .error .gridNodeRemoved g
  else if g.goal = some slot then .error .goalRemoved g
  else if g.start = some slot then .error .startRemoved g
  else .ok (g.node? slot).isSome (g.dropNode slot)

/-- Changes the node in a slot. A redraw is asked for also when there is none. -/
def modifyNode (g : Graph) (slot : Nat) (f : Node → Node) : Graph :=
  { g with nodes := g.nodes.modify slot (·.map f), needsRedraw := true }

/-! ## Edges -/

/-- The id of the next stored edge. -/
def nextEdgeId (g : Graph) : EdgeId := ⟨g.edges.size + 1⟩

/-- Hands out an edge id, which is then never used for an edge. -/
def takeEdgeId (g : Graph) : EdgeId × Graph :=
  (g.nextEdgeId, { g with edges := g.edges.push none })

/-- Adds an edge between two nodes. -/
def addEdge (source target : Nat) (bidirectional : Bool) (data : Bag) : Edit Graph EdgeId := fun g =>
  if (g.node? source).isNone then .error (.slotEmpty source) g
  else if (g.node? target).isNone then .error (.slotEmpty target) g
  else
    let id := g.nextEdgeId
    .ok id { g with edges := g.edges.push (some { id, source, target, bidirectional, data }) }.restructured

/-- Adds an edge without data that may be walked both ways, and lists it in the index if that is up to date. -/
def linkCells (g : Graph) (source target : Nat) : EdgeId × Graph :=
  let id := g.nextEdgeId
  let edge : Edge := { id, source, target, bidirectional := true }
  (id, { g with edges := g.edges.push (some edge), index := g.index.map (·.add edge), needsRedraw := true })

/-- Replaces a stored edge by what `f` makes of it. -/
def updateEdge (g : Graph) (id : EdgeId) (f : Edge → Option Edge) : Graph :=
  match place? id with
  | some place => { g with edges := g.edges.modify place (·.bind f) }
  | none => g

/-- Removes a stored edge, addressed in either direction. -/
def removeEdge (id : EdgeId) : Edit Graph Edge := fun g =>
  match g.edge? id with
  | none => .error (.edgeMissing id.signed) g
  | some edge => .ok edge (g.updateEdge id fun _ => none).restructured

/-- Swaps the ends of a stored edge. -/
def reorientEdge (id : EdgeId) : Edit Graph Unit := fun g =>
  match g.edge? id with
  | none => .error (.edgeMissing id.signed) g
  | some _ =>
    .ok () (g.updateEdge id fun e => some { e with source := e.target, target := e.source }).restructured

/-- Changes a stored edge other than in its ends. A redraw is asked for also when there is none. -/
def modifyEdge (g : Graph) (id : EdgeId) (f : Edge → Edge) : Graph :=
  (g.updateEdge id fun e => some (f e)).redraw

/-! ## Start, goal and outcome -/

/-- That a slot, if one is given, holds a node. -/
def checkSlot (g : Graph) : Option Nat → Except Error Unit
  | none => .ok ()
  | some slot => if (g.node? slot).isSome then .ok () else .error (.slotEmpty slot)

/-- Sets or clears the start. -/
def setStart (slot : Option Nat) : Edit Graph Unit := fun g =>
  match g.checkSlot slot with
  | .error e => .error e g
  | .ok _ => .ok () { g with start := slot, needsRedraw := true }

/-- Sets or clears the goal. -/
def setGoal (slot : Option Nat) : Edit Graph Unit := fun g =>
  match g.checkSlot slot with
  | .error e => .error e g
  | .ok _ => .ok () { g with goal := slot, needsRedraw := true }

/-- Notes how a search ended. -/
def setOutcome (g : Graph) (outcome : Outcome) : Graph := { g with outcome, needsRedraw := true }

/-- Notes how far a search has come with a node. A redraw is asked for also when there is none. -/
def setNodeState (slot : Nat) (state : String) : Edit Graph Unit := fun g =>
  match g.node? slot with
  | none => .error (.slotEmpty slot) g.redraw
  | some _ => .ok () (g.modifyNode slot fun n => { n with data := n.data.set "state" (.text state) })

/-- Clears all that a search has left behind. -/
def resetSearch (g : Graph) : Graph :=
  let resetNode (n : Node) : Node :=
    { n with data := (n.data.set "state" (.text "")).set "highlighted" (.bool false) }
  let resetEdge (e : Edge) : Edge := { e with data := e.data.set "highlighted" (.bool false) }
  { g with
    nodes := g.nodes.map (·.map resetNode)
    edges := g.edges.map (·.map resetEdge)
    outcome := .none
    needsRedraw := true }

end SearchLab.Graph
