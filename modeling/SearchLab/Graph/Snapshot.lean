import SearchLab.Graph.Inspect

/-!
# Graphs as data

What a host that draws a graph is told: the graph with all its nodes and edges, and what was derived from them.
-/

namespace SearchLab

/-- The cost of a diagonal step as a value. -/
def Diagonal.toJson (d : Diagonal) : Json :=
  .object
    [ ("display", .text d.display), ("name", .ofOption .text d.name?), ("value", .ofExtended d.value),
      ("enabled", .bool d.isEnabled), ("cost", .ofExtended d.effectiveCost),
      ("custom", .bool (match d with | .custom _ => true | _ => false)) ]

/-- The size of a grid as a value. -/
def GridSpec.toJson (spec : GridSpec) : Json :=
  .object [("width", .nat spec.width), ("height", .nat spec.height), ("diagonal", spec.diagonal.toJson)]

/-- The ids of some edges as a value. -/
def EdgeView.idsJson (views : List EdgeView) : Json := .list (views.map fun v => .int v.id.signed)

namespace Graph

/-- A node of a graph as a value. -/
def nodeJson (g : Graph) (n : Node) : Json :=
  .object
    [ ("ix", .nat n.slot), ("id", .text n.id), ("x", .nat n.x), ("y", .nat n.y), ("data", .object n.data),
      ("style", .object n.style), ("traversable", .bool n.isTraversable), ("label", .text n.label),
      ("state", .text n.state), ("highlighted", .bool n.isHighlighted),
      ("h", .ofExtended (g.heuristic n.slot)), ("all", EdgeView.idsJson (g.leaving n.slot true)),
      ("out", EdgeView.idsJson (g.leaving n.slot)), ("in", EdgeView.idsJson (g.arriving n.slot)) ]

/-- A stored edge of a graph as a value. -/
def edgeJson (g : Graph) (e : Edge) : Json :=
  .object
    [ ("id", .int e.id.signed), ("source", .nat e.source), ("target", .nat e.target),
      ("bidirectional", .bool e.bidirectional), ("data", .object e.data), ("style", .object e.style),
      ("weight", .ofExtended e.weight.toFloat), ("forbidden", .bool e.isForbidden),
      ("flipped", .bool e.isFlipped), ("forward", .bool (g.isTraversable ⟨e, false⟩)),
      ("backward", .bool (g.isTraversable ⟨e, true⟩)) ]

/-- An edge of a graph, seen in one of its directions, as a value. -/
def viewJson (g : Graph) (v : EdgeView) : Json :=
  .object
    [ ("id", .int v.id.signed), ("reverse", .bool v.reversed), ("source", g.idValue v.source),
      ("target", g.idValue v.target), ("source_ix", .nat v.source), ("target_ix", .nat v.target),
      ("weight", .ofExtended v.edge.weight.toFloat), ("bidirectional", .bool v.edge.bidirectional),
      ("traversable", .bool (g.isTraversable v)), ("stored", .int v.edge.id.signed) ]

/-- A graph as a value. The index is brought up to date, unless there is no node to look at. -/
def snapshot (g : Graph) : Json × Graph :=
  let after := if g.nodeList.isEmpty then g else g.reindex
  (.object
    [ ("grid", .ofOption GridSpec.toJson g.grid), ("dirty", .list [.bool g.isStale, .bool g.needsRedraw]),
      ("nodes", .list (g.nodeList.map after.nodeJson)), ("edges", .list (g.edgeList.map after.edgeJson)),
      ("start", g.idValue g.start), ("end", g.idValue g.goal), ("outcome", .text g.outcome.name),
      ("next_node", .text g.freshId), ("default_bidirectional", .bool g.defaultBidirectional),
      ("physics_enabled", .bool g.physicsEnabled) ], after)

/-- The size and the flags of a graph as a value. -/
def summary (g : Graph) : Json :=
  .list
    [ .nat g.nodeCount, .nat g.edgeCount, .bool g.isStale, .bool g.needsRedraw, .ofOption .nat g.start,
      .ofOption .nat g.goal, .text g.outcome.name ]

end Graph

end SearchLab
