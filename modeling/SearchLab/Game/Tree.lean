import SearchLab.Game.Rules
import SearchLab.Graph.Edits
import SearchLab.Graph.Reach

/-!
# Game trees

A game tree is a free-form graph of positions: a node's id is the id of its position, an edge is a move, with its
action among its data. What a search knows of a position stands beside its node, at the same place; nodes are
never removed, so the two stay in step. Two moves may lead to one node, and moves may lead back.

Each node carries a path count: the number of lines of play through it that the tree shows. A position that is
expanded to several moves adds to the counts of all nodes from which it can be reached.

* `ensureNode`, `grow` — new positions and their moves;
* `movesFromEdges` — the moves of a node, read from the graph alone;
* `bestLine`, `highlight` — the line of best moves, and the edges along it.
-/

namespace SearchLab.Game

/-- What a search knows of a position. -/
structure Entry (π υ : Type) where
  position : π
  /-- The moves, once the position was expanded. -/
  moves : Option (List Move) := none
  /-- The moves that achieve the utility. -/
  bestMoves : List Move := []
  /-- What the position is worth. -/
  utility : Option υ := none

/-- A game tree. -/
structure Tree (π υ : Type) where
  graph : Graph := .empty
  entries : Array (Entry π υ) := #[]
  root : Nat := 0

namespace Tree

variable {π υ : Type}

/-- What is known of the position in a slot. -/
def entry? (t : Tree π υ) (slot : Nat) : Option (Entry π υ) := t.entries[slot]?

/-- The position in a slot. -/
def position? (t : Tree π υ) (slot : Nat) : Option π := (t.entry? slot).map Entry.position

/-- What the position in a slot is worth. -/
def utility? (t : Tree π υ) (slot : Nat) : Option υ := (t.entry? slot).bind Entry.utility

/-- The number of positions. -/
def size (t : Tree π υ) : Nat := t.entries.size

/-- Changes what is known of the position in a slot. -/
def modifyEntry (t : Tree π υ) (slot : Nat) (f : Entry π υ → Entry π υ) : Tree π υ :=
  { t with entries := t.entries.modify slot f }

/-- Whether the node in a slot is marked as expanded. -/
def isExpanded (t : Tree π υ) (slot : Nat) : Bool :=
  ((t.graph.node? slot).bind fun n => n.data.bool? "expanded").getD false

/-- The path count of the node in a slot: a word without a sign. -/
def pathCount (t : Tree π υ) (slot : Nat) : UInt64 :=
  ((((t.graph.node? slot).bind fun n => n.data.get? "pathCount").bind Json.nat?).getD 0).toUInt64

/-! ## New positions -/

section

variable [Position π υ]

/-- The id of the position in a slot; empty where there is none. -/
def positionId (t : Tree π υ) (slot : Nat) : String := ((t.position? slot).map Position.id).getD ""

/-- The data of a node that is not expanded. -/
def newData : Bag := [("expanded", .bool false), ("pathCount", .nat 1)]

/-- The slot of a position and whether it is new. Where something else has put nodes into the graph, a new
position finds no place beside its node. -/
def ensureNode (p : π) : Edit (Tree π υ) (Nat × Bool) := fun t =>
  match t.graph.slot? (Position.id p) with
  | some slot => .ok (slot, false) t
  | none =>
    match Graph.addNode (Position.id p) newData t.graph with
    | .error e graph => .error e { t with graph }
    | .ok slot graph =>
      if slot = t.entries.size then
        .ok (slot, true) { t with graph, entries := t.entries.push { position := p } }
      else .error (.treeOutOfStep slot (Position.id p)) { t with graph }

/-- The tree of one position. -/
def ofRoot (p : π) : Tree π υ :=
  match ensureNode p {} with
  | .ok (slot, _) t => { t with root := slot }
  | .error _ t => t

/-- Makes a position the root. -/
def setRoot (p : π) : Edit (Tree π υ) Nat := fun t =>
  match ensureNode p t with
  | .error e t => .error e t
  | .ok (slot, _) t => .ok slot { t with root := slot }

/-- Adds the edge of a move. -/
def link (source target : Nat) (action : Action) : Edit (Tree π υ) EdgeId := fun t =>
  match Graph.addEdge source target false [("action", .object action)] t.graph with
  | .error e graph => .error e { t with graph }
  | .ok id graph => .ok id { t with graph }

/-- Adds a move and the position that it leads to. -/
def addMove (source : Nat) (branch : Action × π) : Edit (Tree π υ) Move := fun t =>
  match ensureNode branch.2 t with
  | .error e t => .error e t
  | .ok (target, _) t =>
    match link source target branch.1 t with
    | .error e t => .error e t
    | .ok _ t => .ok ⟨t.positionId target, target, branch.1⟩ t

/-- Adds moves in order. -/
def addMoves (source : Nat) : List (Action × π) → Edit (Tree π υ) (List Move)
  | [] => fun t => .ok [] t
  | branch :: branches => fun t =>
    match addMove source branch t with
    | .error e t => .error e t
    | .ok move t =>
      match addMoves source branches t with
      | .error e t => .error e t
      | .ok moves t => .ok (move :: moves) t

end

/-- Adds to the path count of a node. -/
def raiseCount (delta : UInt64) (t : Tree π υ) (slot : Nat) : Tree π υ :=
  { t with
    graph := t.graph.modifyNode slot fun n =>
      { n with data := n.data.set "pathCount" (.nat (t.pathCount slot + delta).toNat) } }

/-- Adds to the path counts of a node and of all nodes from which it can be reached, once to each. -/
def addPaths (t : Tree π υ) (slot : Nat) (delta : UInt64) : Tree π υ :=
  (t.graph.ancestors slot).foldl (raiseCount delta) t

/-- Keeps the moves of a position. -/
def keepMoves (t : Tree π υ) (slot : Nat) (moves : List Move) : Tree π υ :=
  t.modifyEntry slot fun e => { e with moves := some moves }

/-- Marks a node as expanded and keeps its moves. -/
def markExpanded (t : Tree π υ) (slot : Nat) (moves : List Move) : Tree π υ :=
  { t with
    graph := t.graph.modifyNode slot fun n =>
      { n with data := n.data.set "expanded" (.bool true) } }.keepMoves slot moves

/-- By how many lines of play the tree shows more when a position is expanded to so many moves. -/
def gain [Position π υ] (p : π) (moves : Nat) : Nat := if Position.isTerminal p then 0 else moves - 1

/-- Expands the node of a position to its branches. -/
def grow [Position π υ] (slot : Nat) (p : π) (branches : List (Action × π)) : Edit (Tree π υ) (List Move) := fun t =>
  match addMoves slot branches t with
  | .error e t => .error e t
  | .ok moves t =>
    let delta := gain p moves.length
    let t := if delta = 0 then t else t.addPaths slot delta.toUInt64
    .ok moves (t.markExpanded slot moves)

/-! ## Moves and lines -/

/-- The action of an edge; empty where its data hold none. -/
def actionOf (e : Edge) : Action :=
  match e.data.get? "action" with
  | some (.object action) => action
  | _ => []

/-- The moves of a node, read from the edges that leave it. -/
def movesFromEdges (t : Tree π υ) (slot : Nat) : List Move :=
  (t.graph.leaving slot).filterMap fun v =>
    (t.graph.idOf? v.target).map fun id => ⟨id, v.target, actionOf v.edge⟩

/-- Forgets what the positions are worth. -/
def resetUtilities (t : Tree π υ) : Tree π υ :=
  { t with entries := t.entries.map fun e => { e with utility := none, bestMoves := [] } }

/-- The first of the best moves of a position. -/
def bestMove? (t : Tree π υ) (slot : Nat) : Option Move := (t.entry? slot).bind fun e => e.bestMoves.head?

/-- The first best moves from a node on, until none is left or a node comes up again; `left` are the nodes that
have not come up. -/
def lineFrom (t : Tree π υ) (slot : Nat) (left : List Nat) : List Move :=
  match t.bestMove? slot with
  | none => []
  | some move =>
    if _h : move.slot ∈ left then move :: t.lineFrom move.slot (left.erase move.slot) else []
termination_by left.length
decreasing_by
  have := List.length_erase_of_mem _h
  have := List.length_pos_of_mem _h
  omega

/-- The line of best moves from a node on. -/
def bestLine (t : Tree π υ) (slot : Nat) : List Move := t.lineFrom slot (t.graph.otherSlots slot)

/-- Sets whether the edge with an id is highlighted. -/
def light (on : Bool) (g : Graph) (id : EdgeId) : Graph :=
  g.modifyEdge id fun e => { e with data := e.data.set "highlighted" (.bool on) }

/-- The ids of the edges along a line, up to the first move without an edge. -/
def edgesAlong (g : Graph) (slot : Nat) : List Move → List EdgeId
  | [] => []
  | move :: moves =>
    match (g.between slot move.slot).head? with
    | none => []
    | some v => v.id :: edgesAlong g move.slot moves

/-- Highlights the edges along a line, and no others. -/
def highlight (t : Tree π υ) (slot : Nat) (line : List Move) : Tree π υ :=
  let dark := (t.graph.edgeList.map Edge.id).foldl (light false) t.graph.reindex
  { t with graph := (edgesAlong dark slot line).foldl (light true) dark }

end Tree

end SearchLab.Game
