import SearchLab.Graph.Adjacency
import SearchLab.Graph.Cost
import SearchLab.Graph.Diagonal

/-!
# Graphs

A graph is free-form, or a grid whose nodes are the cells of a lattice. Nodes live in slots that are handed out
once; the slot of a node that was removed stays empty. Stored edges are numbered from 1 in the order in which
they were added, and a number is never used again.

The edges that leave a node are looked up in an index, which is absent while it is out of date; `reindex`
rebuilds it from the stored edges. A second flag asks for the graph to be drawn anew.

* `leaving`, `arriving` — the edges at a node, each seen in the direction in question;
* `isTraversable` — whether an edge may be walked in one of its directions;
* `heuristic` — what a node is estimated to be away from the goal.
-/

namespace SearchLab

/-- The size of a grid and the cost of its diagonals. -/
structure GridSpec where
  width : Nat
  height : Nat
  diagonal : Diagonal

/-- A directed graph whose edges may be walked both ways. -/
structure Graph where
  /-- What makes it a grid. -/
  grid : Option GridSpec := none
  nodes : Array (Option Node) := #[]
  /-- The slot of each id. -/
  slots : Std.HashMap String Nat := {}
  /-- The stored edges; edge `n` stands at place `n - 1`. -/
  edges : Array (Option Edge) := #[]
  /-- The index of the stored edges, unless it is out of date. -/
  index : Option Adjacency := some {}
  /-- The graph has to be drawn anew. -/
  needsRedraw : Bool := false
  start : Option Nat := none
  goal : Option Nat := none
  outcome : Outcome := .none
  /-- New edges may be walked both ways. -/
  defaultBidirectional : Bool := false
  /-- The layout is left to a simulation of forces. -/
  physicsEnabled : Bool := true

namespace Graph

/-- The free-form graph without nodes. -/
def empty : Graph := {}

/-- Whether the graph is a grid. -/
def isGrid (g : Graph) : Bool := g.grid.isSome

/-! ## Nodes -/

/-- The node in a slot. -/
def node? (g : Graph) (slot : Nat) : Option Node := (g.nodes[slot]?).join

/-- The slot of an id. -/
def slot? (g : Graph) (id : String) : Option Nat := g.slots[id]?

/-- The slot of an id that must exist. -/
def slotOf (g : Graph) (id : String) : Except Error Nat :=
  match g.slot? id with
  | some slot => .ok slot
  | none => .error (.nodeMissing id)

/-- The id of the node in a slot. -/
def idOf? (g : Graph) (slot : Nat) : Option String := (g.node? slot).map Node.id

/-- The nodes in the order in which they were added. -/
def nodeList (g : Graph) : List Node := g.nodes.toList.filterMap id

/-- The number of nodes. -/
def nodeCount (g : Graph) : Nat := g.slots.size

/-- The first of `tries` numbers from `candidate` on that is no node's id, or else the number behind them. -/
def freshFrom (g : Graph) (candidate : Nat) : Nat → Nat
  | 0 => candidate
  | tries + 1 => if g.slots.contains (toString candidate) then g.freshFrom (candidate + 1) tries else candidate

/-- The least number from the count of nodes on that is no node's id. -/
def freshId (g : Graph) : String := toString (g.freshFrom g.nodeCount g.nodeCount)

/-! ## Edges -/

/-- The place of an edge among the stored ones. -/
def place? (id : EdgeId) : Option Nat :=
  match id.signed.natAbs with
  | 0 => none
  | n + 1 => some n

/-- The stored edge behind an id. -/
def edge? (g : Graph) (id : EdgeId) : Option Edge :=
  (place? id).bind fun place => (g.edges[place]?).join

/-- The edge with an id, seen in the direction of that id. -/
def view? (g : Graph) (id : EdgeId) : Option EdgeView :=
  (g.edge? id).map fun edge => ⟨edge, id.isReverse⟩

/-- The stored edges by number. -/
def edgeList (g : Graph) : List Edge := g.edges.toList.filterMap id

/-- The number of stored edges. -/
def edgeCount (g : Graph) : Nat := g.edgeList.length

/-- An edge may be walked in a direction when both of its ends let one pass, it is not forbidden, and it goes
both ways or is turned to that direction. -/
def isTraversable (g : Graph) (v : EdgeView) : Bool :=
  let passes (slot : Nat) : Bool := (g.node? slot).any Node.isTraversable
  passes v.source && passes v.target && !v.edge.isForbidden
    && (v.edge.bidirectional || v.edge.isFlipped == v.reversed)

/-! ## The index -/

/-- Whether the index is out of date. -/
def isStale (g : Graph) : Bool := g.index.isNone

/-- The index of the present edges. -/
def currentIndex (g : Graph) : Adjacency :=
  match g.index with
  | some index => index
  | none => .ofEdges g.edgeList

/-- Brings the index up to date. -/
def reindex (g : Graph) : Graph := { g with index := some g.currentIndex }

/-- The ids of the edges that leave a node, in both senses of their direction. -/
def incident (g : Graph) (slot : Nat) : List EdgeId := g.currentIndex.entries slot

/-- Those of some edges that may be walked, or all of them. -/
def passable (g : Graph) (all : Bool) (views : List EdgeView) : List EdgeView :=
  views.filter fun v => all || g.isTraversable v

/-- The edges that leave a node: those that may be walked, or all of them. -/
def leaving (g : Graph) (slot : Nat) (all : Bool := false) : List EdgeView :=
  g.passable all ((g.incident slot).filterMap g.view?)

/-- The edges that arrive at a node: those that may be walked, or all of them. -/
def arriving (g : Graph) (slot : Nat) (all : Bool := false) : List EdgeView :=
  g.passable all ((g.incident slot).filterMap fun id => g.view? id.reversed)

/-- The edges from one node to another. -/
def between (g : Graph) (source target : Nat) (all : Bool := false) : List EdgeView :=
  (g.leaving source all).filter (·.target == target)

/-- The nodes one step behind a node. -/
def successors (g : Graph) (slot : Nat) : List Node :=
  (g.leaving slot).filterMap fun v => g.node? v.target

/-- The nodes one step before a node. -/
def predecessors (g : Graph) (slot : Nat) : List Node :=
  (g.arriving slot).filterMap fun v => g.node? v.source

/-! ## The estimate -/

/-- How far two numbers are apart. -/
def apart (m n : Nat) : Nat := (m - n) + (n - m)

/-- What a node is estimated to be away from the goal: the number under `h`, or else on a grid with a goal the
length of the way there if nothing is in the way, or else nothing. -/
def heuristic {κ : Type} [Cost κ] (g : Graph) (slot : Nat) : κ :=
  match g.node? slot with
  | none => Cost.ofNat 0
  | some n =>
    match n.data.number? "h" with
    | some h => Cost.ofNumber h
    | none =>
      match g.grid, g.goal.bind g.node? with
      | some spec, some goal =>
        let diagonal : κ :=
          if spec.diagonal.isEnabled then Cost.ofFloat spec.diagonal.value else Cost.infinite
        latticeDistance (Cost.ofNat (apart n.x goal.x)) (Cost.ofNat (apart n.y goal.y)) diagonal
      | _, _ => Cost.ofNat 0

end Graph

end SearchLab
