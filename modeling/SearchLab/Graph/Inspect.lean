import SearchLab.Graph.Lattice
import SearchLab.Property

/-!
# The properties of a graph

A graph, its nodes and its edges show properties; `setProperty` checks a change against them and then makes it.
A change that is refused by a rule of its property leaves the graph alone. A name that is no property of the
entity is passed over.
-/

namespace SearchLab.Graph

/-- The id of a node as a value: null where there is none. -/
def idValue (g : Graph) (slot : Option Nat) : Json :=
  match slot.bind g.idOf? with
  | some id => .text id
  | none => .null

/-- The properties of the graph itself. -/
def graphProperties (g : Graph) : List Property :=
  [ { name := "start", type := .text, value := g.idValue g.start },
    { name := "end", type := .text, value := g.idValue g.goal },
    { name := "physics_enabled", type := .flag, value := .bool g.physicsEnabled },
    { name := "default_bidirectional", type := .flag, value := .bool g.defaultBidirectional,
      description := some "Whether to make newly created edges bidirectional by default" } ] ++
  match g.grid with
  | none => []
  | some spec =>
    [ { name := "width", type := .number, value := .nat spec.width, test := some Json.isPositiveWhole },
      { name := "height", type := .number, value := .nat spec.height, test := some Json.isPositiveWhole },
      { name := "diagonal_weights", type := .number, value := .ofFloat spec.diagonal.value } ]

/-- The properties of a node. -/
def nodeProperties (g : Graph) (n : Node) : List Property :=
  [ { name := "id", type := .text, value := .text n.id, fixed := true },
    { name := "label", type := .text, value := .text n.label },
    { name := "is_start", type := .flag, value := .bool (g.start == some n.slot), trigger := true },
    { name := "is_goal", type := .flag, value := .bool (g.goal == some n.slot), trigger := true },
    { name := "h", type := .number, value := .ofFloat (g.heuristic n.slot) },
    { name := "traversable", type := .flag, value := .bool n.isTraversable },
    { name := "highlighted", type := .flag, value := .bool n.isHighlighted },
    { name := "state", type := .text, value := .text n.state, hidden := true,
      options := some [.text "", .text "visited", .text "expanded"] } ] ++
  if g.isGrid then
    [ { name := "x", type := .number, value := .nat n.x, fixed := true },
      { name := "y", type := .number, value := .nat n.y, fixed := true } ]
  else []

/-- The properties of an edge seen in one of its directions. -/
def edgeProperties (g : Graph) (v : EdgeView) : List Property :=
  [ { name := "id", type := .number, value := .int v.id.signed, fixed := true },
    { name := "source", type := .text, value := g.idValue v.source, fixed := true },
    { name := "target", type := .text, value := g.idValue v.target, fixed := true },
    { name := "weight", type := .number, value := .ofFloat v.edge.weight.toFloat },
    { name := "bidirectional", type := .flag, value := .bool v.edge.bidirectional },
    { name := "flipped", type := .flag, value := .bool v.edge.isFlipped },
    { name := "highlighted", type := .flag, value := .bool (v.edge.data.isTruthy "highlighted") },
    { name := "forbidden", type := .flag, value := .bool v.edge.isForbidden } ]

/-- The properties of whatever is addressed. -/
def propertiesOf (g : Graph) : Target → Except Error (List Property)
  | .graph => .ok g.graphProperties
  | .node id =>
    match g.slotOf id with
    | .error e => .error e
    | .ok slot =>
      match g.node? slot with
      | some n => .ok (g.nodeProperties n)
      | none => .error (.slotEmpty slot)
  | .edge id =>
    match g.view? id with
    | some v => .ok (g.edgeProperties v)
    | none => .error (.edgeMissing id.signed)

/-- The class of an entity, as the error about a missing property names it. -/
def className : Target → String
  | .graph => "Graph"
  | .node _ => "GraphNode"
  | .edge _ => "GraphEdge"

/-- The present value of a property. -/
def getProperty (g : Graph) (target : Target) (name : String) : Except Error Json :=
  match g.propertiesOf target with
  | .error e => .error e
  | .ok properties =>
    match Property.find? properties name with
    | some p => .ok p.value
    | none => .error (.notImplemented s!"Property {name} for {className target}")

/-- The text that a value must be. -/
def needText (value : Json) : Edit Graph String :=
  .require value.text? (.valueOfType "string" value.write)

/-- The truth value that a value must be. -/
def needFlag (value : Json) : Edit Graph Bool :=
  .require value.bool? (.valueOfType "boolean" value.write)

/-- The number that a value must be. -/
def needNumber (value : Json) : Edit Graph Float :=
  .require (value.number?.map Number.toFloat) (.valueOfType "number" value.write)

/-- Makes a change of the graph itself; says whether there is such a change. -/
def applyToGraph (name : String) (value : Json) : Edit Graph Bool := do
  match name with
  | "start" =>
    let id ← needText value
    let slot ← Edit.check (·.slotOf id)
    setStart (some slot)
    return true
  | "end" =>
    let id ← needText value
    let slot ← Edit.check (·.slotOf id)
    setGoal (some slot)
    return true
  | "physics_enabled" =>
    let on ← needFlag value
    modify fun g => { g with physicsEnabled := on }
    return true
  | "default_bidirectional" =>
    let on ← needFlag value
    modify fun g => { g with defaultBidirectional := on }
    return true
  | "width" =>
    let spec ← Edit.check gridSpec
    let n ← needNumber value
    resize n.toUInt64.toNat spec.height
    return true
  | "height" =>
    let spec ← Edit.check gridSpec
    let n ← needNumber value
    resize spec.width n.toUInt64.toNat
    return true
  | "diagonal_weights" =>
    let v ← needNumber value
    setDiagonal (.ofValue v)
    return true
  | _ => return false

/-- Makes a change of a node; says whether there is such a change. -/
def applyToNode (slot : Nat) (name : String) (value : Json) : Edit Graph Bool := do
  match name with
  | "is_start" =>
    setStart (some slot)
    return true
  | "is_goal" =>
    setGoal (some slot)
    return true
  | "label" | "h" | "traversable" | "highlighted" | "state" =>
    let g ← get
    set (g.modifyNode slot fun n => { n with data := n.data.set name value })
    let _ ← Edit.require (g.node? slot) (.slotEmpty slot)
    return true
  | _ => return false

/-- Makes a change of a stored edge; says whether there is such a change. A redraw is asked for in any case. -/
def applyToEdge (id : EdgeId) (name : String) (value : Json) : Edit Graph Bool := do
  modify redraw
  let g ← get
  let _ ← Edit.require (g.edge? id) (.edgeMissing id.signed)
  match name with
  | "weight" =>
    let w ← needNumber value
    set (g.modifyEdge id fun e => { e with data := e.data.set "w" (.ofFloat w) })
    return true
  | "bidirectional" =>
    let on ← needFlag value
    set (g.modifyEdge id fun e => { e with bidirectional := on })
    return true
  | "flipped" | "highlighted" | "forbidden" =>
    set (g.modifyEdge id fun e => { e with data := e.data.set name value })
    return true
  | _ => return false

/-- Checks a change of a property and makes it; says whether the entity has such a property. -/
def setProperty (target : Target) (name : String) (value : Json) : Edit Graph Bool := do
  let properties ← Edit.check (·.propertiesOf target)
  let found ← Edit.check fun _ => Property.checkUpdate properties name value
  if found.isNone then return false
  let applied ← match target with
    | .graph => applyToGraph name value
    | .node id => do
      let slot ← Edit.check (·.slotOf id)
      applyToNode slot name value
    | .edge id => applyToEdge id name value
  if applied then modify redraw
  return applied

/-- The names of the properties of an entity; it has none where it does not exist. -/
def propertyNames (g : Graph) (target : Target) : List String :=
  match g.propertiesOf target with
  | .ok properties => properties.map Property.name
  | .error _ => []

end SearchLab.Graph
