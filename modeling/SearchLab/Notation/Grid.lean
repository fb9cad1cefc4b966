import SearchLab.Graph.Lattice
import SearchLab.Notation.Document
import SearchLab.Notation.Payload

/-!
# Grid documents

    GRID 3x2
    1 1 0
    1 1 1
    DIAGONAL euclidean
    NODE 2 1 (data)
    EDGE 0 0 1 0 (data)
    START 0 0
    GOAL 2 1

Behind the header stand the rows of the lattice, a number above zero for every cell that lets one pass. The
statements behind them adjust what is there: `EDGE` changes the edge between two cells that touch and turns it so
that it leaves the first one. What a lattice implies is not written.
-/

namespace SearchLab.Notation.Grid

/-- A coordinate. -/
def coordinate (s : Statement) (arg : Arg) (phase : String) : Except Error Nat :=
  match Decimal.natural? arg.value.toList with
  | some n => .ok n
  | none =>
    refuse s.line arg.column s!"Invalid coordinate in {phase}, received \"{arg.value}\"" s!"{s.command} 0 0"

/-- The cell that two arguments name. -/
def cellArg (g : Graph) (s : Statement) (args : Arg × Arg) (phase : String) : Except Error Nat := do
  let x ← coordinate s args.1 phase
  let y ← coordinate s args.2 phase
  match g.slot? (Graph.cellId x y) with
  | some slot => return slot
  | none =>
    let (width, height) := match g.grid with
      | some spec => (spec.width, spec.height)
      | none => (0, 0)
    refuse s.line args.1.column
      s!"Invalid node coordinates in {phase}, received ({x},{y}), but graph is ({width}x{height})"

/-- A row in which every cell lets one pass. -/
def rowSample (width : Nat) : String := " ".intercalate (List.replicate width "1")

/-- The numbers of a row, each cell with whether it lets one pass. -/
def rowValues (width : Nat) (row : Line) : Except Error (List Bool) := do
  let text := String.ofList row.text
  let values ← (Text.words row.text).mapM fun (column, token) =>
    match Decimal.integer? token with
    | some n => Except.ok (decide (0 < n))
    | none =>
      refuse row.number column
        s!"Invalid traversability value, received \"{String.ofList token}\" ({text})" "1"
  if values.length = width then return values
  else
    refuse row.number 0 s!"Invalid grid row, expected {width} numeric values, got {values.length} ({text})"
      (rowSample width)

/-- Opens or blocks a cell. -/
def setCell (x y : Nat) (isOpen : Bool) : Edit Graph Unit := do
  let slot ← Edit.check fun g => g.cellSlot x y
  modify fun g => g.modifyNode slot fun n => { n with data := n.data.set "traversable" (.bool isOpen) }

/-- Opens and blocks the cells of row `y`. -/
def applyRow (width : Nat) (row : Line) (y : Nat) : Edit Graph Unit := do
  let values ← Edit.check fun _ => rowValues width row
  values.zipIdx.forM fun (isOpen, x) => setCell x y isOpen

/-- Opens and blocks all cells; `rows` are the lines behind the header. -/
def applyRows (headerLine width height : Nat) (rows : List Line) : Edit Graph Unit := do
  if rows.length < height then
    let last := (rows.getLast?.map Line.number).getD headerLine
    Edit.check fun _ =>
      refuse (last + 1) 0
        s!"Invalid grid, expected {height} rows of traversability values, got {rows.length}"
        (rowSample width)
  else
    (rows.take height).zipIdx.forM fun (row, y) => applyRow width row y

/-- Replaces data and style of a cell; whether it lets one pass stays, unless the data say so. -/
def setNode (slot : Nat) (data style : Bag) (g : Graph) : Graph :=
  g.modifyNode slot fun n =>
    let kept := match n.data.get? "traversable", data.get? "traversable" with
      | some value, none => data.set "traversable" value
      | _, _ => data
    { n with data := kept, style }

/-- A bag with the members of another one set in it. -/
def setAll (bag news : Bag) : Bag := news.foldl (fun bag m => bag.set m.1 m.2) bag

/-- Changes the edge from one cell to another, which must touch. -/
def setEdge (s : Statement) (column source target : Nat) : Edit Graph Unit := do
  modify Graph.reindex
  let g ← get
  match (g.between source target true).head? with
  | none =>
    let name (slot : Nat) : String := (g.idOf? slot).getD ""
    Edit.check fun _ =>
      refuse s.line column s!"No edge exists between the two given nodes ({name source} and {name target})"
  | some view =>
    if view.id.isReverse then Graph.reorientEdge view.id
    modify fun g => g.modifyEdge view.id fun e =>
      { e with
        data := setAll e.data s.data, style := setAll e.style s.style, bidirectional := s.isBidirectional }

/-- Makes a grid what a statement says. -/
def apply (s : Statement) : Edit Graph Unit := do
  match s.command with
  | "NODE" =>
    let args ← Edit.check fun _ => s.two "node setup"
    let slot ← Edit.check fun g => cellArg g s args "node setup"
    modify (setNode slot s.data s.style)
  | "DIAGONAL" =>
    let arg ← Edit.check fun _ => s.one "diagonal setting"
    match Diagonal.ofText? arg.value with
    | some diagonal => Graph.setDiagonal diagonal
    | none =>
      let names := ", ".intercalate (Diagonal.named.map Prod.fst)
      Edit.check fun _ =>
        refuse s.line arg.column
          s!"Invalid diagonal weight mode, expected one of {names} or a number, got {arg.value}"
          "DIAGONAL euclidean"
  | "EDGE" =>
    let (a, b, c, d) ← Edit.check fun _ => s.four "edge setup"
    let source ← Edit.check fun g => cellArg g s (a, b) "edge setup"
    let target ← Edit.check fun g => cellArg g s (c, d) "edge setup"
    setEdge s a.column source target
  | "START" =>
    let args ← Edit.check fun _ => s.two "start node indication"
    let slot ← Edit.check fun g => cellArg g s args "start node indication"
    Graph.setStart (some slot)
  | "GOAL" =>
    let args ← Edit.check fun _ => s.two "goal node indication"
    let slot ← Edit.check fun g => cellArg g s args "goal node indication"
    Graph.setGoal (some slot)
  | _ => return ()

/-- Makes a grid what a line says. -/
def applyLine (line : Line) : Edit Graph Unit := do
  match ← Edit.check fun _ => Statement.ofLine? line with
  | some s => apply s
  | none => return ()

/-- The grid that a header and the lines behind it describe. -/
def read (headerLine width height : Nat) (lines : List Line) : Except Error Graph :=
  match Graph.ofGrid width height .disabled with
  | .error e => .error e
  | .ok g =>
    let build : Edit Graph Unit := do
      applyRows headerLine width height lines
      (lines.drop height).forM applyLine
    match build g with
    | .ok _ g => .ok g
    | .error e _ => .error e

/-- The row of cells at height `y`. -/
def rowLine (g : Graph) (width y : Nat) : String :=
  " ".intercalate <| (List.range width).map fun x =>
    match (g.slot? (Graph.cellId x y)).bind g.node? with
    | some n => if n.isTraversable then "1" else "0"
    | none => s!"?{Graph.cellId x y}"

/-- The data of an edge that its place on the lattice does not imply. -/
def edgeData (contact : Graph.Contact) (diagonal : Diagonal) (data : Bag) : Bag :=
  let (weight, forbidden) : Float × Bool := match contact with
    | .orthogonal => (1.0, false)
    | .diagonal => (diagonal.value, diagonal.value < 0.0)
  let weightImplied : Bool := match contact with
    | .orthogonal => (weightOf data).toFloat == weight
    | .diagonal => (data.number? "w").any fun w => w.toFloat == weight
  let forbiddenImplied : Bool := match data.get? "forbidden" with
    | some (.bool b) => b == forbidden
    | some _ => false
    | none => !forbidden
  lasting data ((if weightImplied then ["w"] else []) ++ if forbiddenImplied then ["forbidden"] else [])

/-- The line of an edge; an edge that is as the lattice implies has none. -/
def edgeLine? (g : Graph) (diagonal : Diagonal) (e : Edge) : Option String :=
  match g.node? e.source, g.node? e.target, g.contact? e.source e.target with
  | some source, some target, some contact =>
    let payload := payload? (edgeData contact diagonal e.data) e.style
    if payload.isNone && e.bidirectional then none
    else
      some <| joinLine
        (["EDGE", toString source.x, toString source.y, toString target.x, toString target.y] ++
          if e.bidirectional then ["-b"] else [])
        payload
  | _, _, _ => none

/-- The line of a node that carries more than whether it lets one pass. -/
def nodeLine? (n : Node) : Option String :=
  match payload? (lasting n.data ["traversable"]) n.style with
  | none => none
  | payload => some (joinLine ["NODE", toString n.x, toString n.y] payload)

/-- The document of a grid; any other graph has none. -/
def write (g : Graph) : String :=
  match g.grid with
  | none => ""
  | some spec =>
    let ends (word : String) (slot : Option Nat) : List String :=
      (slot.bind g.node?).toList.map fun n => joinLine [word, toString n.x, toString n.y] none
    "\n".intercalate
      ([s!"GRID {spec.width}x{spec.height}"] ++ (List.range spec.height).map (rowLine g spec.width) ++
        [s!"DIAGONAL {spec.diagonal.display}"] ++ ends "START" g.start ++ ends "GOAL" g.goal ++
        g.nodeList.filterMap nodeLine? ++ g.edgeList.filterMap (edgeLine? g spec.diagonal))

end SearchLab.Notation.Grid
