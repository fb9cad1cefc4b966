import SearchLab.Game.Session
import SearchLab.Game.Table
import SearchLab.Graph.Inspect

/-!
# Game trees as data

What a host that draws a game tree is told: the tree with what is known of its positions, moves, and what a tick
has done.
-/

namespace SearchLab.Game

/-- A move as a value. -/
def Move.toJson (m : Move) : Json := .list [.text m.id, .nat m.slot, .object m.action, .text m.action.label]

/-- Moves as a value. -/
def Move.listJson (moves : List Move) : Json := .list (moves.map toJson)

/-- The ids of the positions that moves lead to, as a value. -/
def Move.idsJson (moves : List Move) : Json := .texts (moves.map id)

/-- The moves of a position as a value. -/
def Expansion.toJson (x : Expansion) : Json :=
  .object [("position", .text x.id), ("moves", Move.listJson x.moves)]

namespace Tree

variable {υ : Type}

/-- A position of a tree as a value. -/
def entryJson (t : Tree Place Float) (slot : Nat) (e : Entry Place Float) : Json :=
  .object
    [ ("ix", .nat slot), ("id", t.graph.idValue slot), ("key", .text e.position.key),
      ("data", .ofOption (fun n : Node => .object n.data) (t.graph.node? slot)),
      ("expanded", .bool (t.isExpanded slot)), ("paths", .nat (t.pathCount slot).toNat),
      ("moves", .ofOption Move.idsJson e.moves), ("best", Move.idsJson e.bestMoves),
      ("utility", .ofOption .ofExtended e.utility) ]

/-- A tree of positions of a table as a value. -/
def toJson (t : Tree Place Float) : Json :=
  .object
    [ ("root", .nat t.root),
      ("nodes", .list (t.entries.toList.zipIdx.map fun (e, slot) => t.entryJson slot e)),
      ("edges", .list (t.graph.edgeList.map fun e =>
        .list [.int e.id.signed, .nat e.source, .nat e.target, .object e.data])),
      ("empty", .bool (t.size == 0)) ]

/-- What is known of a position of a table, as a value. -/
def query (t : Tree Place Float) (slot : Nat) : Json :=
  .object
    [ ("expanded", .bool (t.isExpanded slot)), ("paths", .nat (t.pathCount slot).toNat),
      ("utility", .ofOption .ofExtended (t.utility? slot)),
      ("position", .ofOption (fun p : Place => .text p.id) (t.position? slot)),
      ("entry", .bool (t.entry? slot).isSome), ("edge_moves", Move.listJson (t.movesFromEdges slot)) ]

end Tree

/-- The size of an engine's tree, as values. -/
def Engine.sizes {π υ : Type} (e : Engine π υ) : List Json :=
  [.nat e.tree.size, .nat e.tree.graph.edgeCount, .nat (e.tree.pathCount e.tree.root).toNat]

/-- What may still be done to an engine's tree, as values. -/
def Engine.budgets {π υ : Type} (e : Engine π υ) : List Json :=
  [.text e.expansions.display, .text e.steps.display]

/-- What a tick has done, as a value. -/
def Report.toJson (r : Report) : Json :=
  .object
    [ ("expansions", .nat r.expansions), ("algorithm_steps", .nat r.steps), ("topology_changed", .bool r.grown),
      ("expansion_done", .bool r.expansionDone), ("algorithm_done", .bool r.evaluationDone),
      ("notifications", .list (r.notices.map fun n => .list [.text n.level.name, .text n.message])),
      ("play", Move.idsJson r.line) ]

/-- What a configuration says, as values under names. -/
def Configuration.fields (c : Configuration) : List (String × Json) :=
  [ ("tick_timeout_ms", .nat c.tickTimeout), ("max_expansions", .text c.maxExpansions.display),
    ("max_algorithm_steps", .text c.maxSteps.display), ("secs", .nat (c.tickTimeout / 1000)),
    ("is_default", .bool (c == {})) ]

end SearchLab.Game
