import SearchLab.Graph.Edits

/-!
# Grids

A grid has a node for every cell of a lattice, with the id `x_y`, and an edge between every two cells that touch
along a side or at a corner. Edges across a corner cost what the grid says of diagonals and are forbidden where
that is negative.

Edges are only ever completed: `completeEdges` adds those that a cell lacks and weighs the diagonal ones anew.
What blocks a cell are its data, which decide whether its edges may be walked.
-/

namespace SearchLab.Graph

/-- The id of a cell. -/
def cellId (x y : Nat) : String := s!"{x}_{y}"

/-- The offsets of the eight cells around a cell. -/
def offsets : List (Int × Int) :=
  [(0, 1), (0, -1), (1, 0), (-1, 0), (1, 1), (-1, 1), (1, -1), (-1, -1)]

/-- A cell beside another one. -/
structure Neighbour where
  x : Nat
  y : Nat
  /-- The two cells touch at a corner only. -/
  isDiagonal : Bool
deriving DecidableEq, Repr

/-- The cells around a cell that lie within the bounds. -/
def neighbours (width height x y : Nat) : List Neighbour :=
  offsets.filterMap fun (dx, dy) =>
    let nx := (x : Int) + dx
    let ny := (y : Int) + dy
    if nx < 0 || ny < 0 || (width : Int) ≤ nx || (height : Int) ≤ ny then none
    else some ⟨nx.toNat, ny.toNat, dx != 0 && dy != 0⟩

/-- The cells of a lattice, column by column. -/
def cells (width height : Nat) : List (Nat × Nat) :=
  (List.range width).flatMap fun x => (List.range height).map fun y => (x, y)

/-- How two cells touch. -/
inductive Contact where
  | orthogonal
  | diagonal
deriving DecidableEq, Repr

/-- The word for a contact. -/
def Contact.name : Contact → String
  | .orthogonal => "orthogonal"
  | .diagonal => "diagonal"

/-- How two nodes of a grid touch, if they do. -/
def contact? (g : Graph) (a b : Nat) : Option Contact :=
  match g.node? a, g.node? b with
  | some a, some b =>
    match apart a.x b.x, apart a.y b.y with
    | 1, 0 => some .orthogonal
    | 0, 1 => some .orthogonal
    | 1, 1 => some .diagonal
    | _, _ => none
  | _, _ => none

/-- What makes a graph a grid. -/
def gridSpec (g : Graph) : Except Error GridSpec :=
  match g.grid with
  | some spec => .ok spec
  | none => .error .gridRequired

/-- The slot of the cell at a place. -/
def cellSlot (g : Graph) (x y : Nat) : Except Error Nat :=
  match g.slot? (cellId x y) with
  | some slot => .ok slot
  | none => .error (.cellMissing (cellId x y) g.nodeCount)

/-- Gives an edge across a corner the cost of diagonals. -/
def weighDiagonal (g : Graph) (id : EdgeId) (diagonal : Diagonal) : Graph :=
  g.updateEdge id fun e =>
    some { e with
      data := (e.data.set "w" (.ofFloat diagonal.value)).set "forbidden" (.bool (diagonal.value < 0.0)) }

/-- Completes the edge from a node to a cell beside it. -/
def completeEdge (slot : Nat) (diagonal : Diagonal) (cell : Neighbour) : Edit Graph Unit := fun g =>
  match g.cellSlot cell.x cell.y with
  | .error e => .error e g
  | .ok target =>
    let (id, g) :=
      match (g.between slot target true).head? with
      | some view => (view.id, g)
      | none => g.linkCells slot target
    .ok () (if cell.isDiagonal then g.weighDiagonal id diagonal else g)

/-- Completes the edges around a node. -/
def completeEdges (slot : Nat) : Edit Graph Unit := fun g =>
  match g.gridSpec with
  | .error e => .error e g
  | .ok spec =>
    match g.node? slot with
    | none => .error (.slotEmpty slot) g
    | some n =>
      (neighbours spec.width spec.height n.x n.y).forM (completeEdge slot spec.diagonal) g.reindex

/-- Completes the edges around every node. -/
def completeAllEdges : Edit Graph Unit := fun g =>
  match (g.nodeList.map Node.slot).forM completeEdges g with
  | .error e g => .error e g
  | .ok _ g => .ok () g.redraw

/-- Adds the node of a cell, unless there is one. -/
def insertCell (cell : Nat × Nat) : Edit Graph Unit := fun g =>
  if (g.slot? (cellId cell.1 cell.2)).isSome then .ok () g
  else
    match insertNode (cellId cell.1 cell.2) cell.1 cell.2 [] g with
    | .error e g => .error e g
    | .ok _ g => .ok () g

/-- The grid of a size, with every cell open. -/
def ofGrid (width height : Nat) (diagonal : Diagonal) : Except Error Graph :=
  let build : Edit Graph Unit := do
    (cells width height).forM insertCell
    completeAllEdges
  match build { grid := some { width, height, diagonal } } with
  | .error e _ => .error e
  | .ok _ g => .ok g

/-- Changes what diagonals cost, on the edges that are there too. -/
def setDiagonal (diagonal : Diagonal) : Edit Graph Unit := fun g =>
  match g.gridSpec with
  | .error e => .error e g
  | .ok spec => completeAllEdges { g with grid := some { spec with diagonal } }

/-- Changes the size: new cells are added, cells outside are dropped with their edges, and the edges of all
others completed. A size that would drop the start or the goal is refused. -/
def resize (width height : Nat) : Edit Graph Unit := fun g =>
  match g.gridSpec with
  | .error e => .error e g
  | .ok spec =>
    let outside := (g.nodeList.filter fun n => width ≤ n.x || height ≤ n.y).map Node.slot
    if outside.any fun slot => some slot = g.start || some slot = g.goal then .error .resizeDropsEnd g
    else
      match (cells width height).forM insertCell g with
      | .error e g => .error e g
      | .ok _ g => completeAllEdges { outside.foldl dropNode g with grid := some { spec with width, height } }

end SearchLab.Graph
