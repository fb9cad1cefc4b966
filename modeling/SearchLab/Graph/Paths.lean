import SearchLab.Graph.Basic

/-!
# Shortest paths

The search settles the node that is nearest by the ways found so far and tries the edges there, and goes on
until no way is left to be tried. A node comes up again whenever a shorter way to it is found, so with negative
costs the search may go on for long, and around a cycle of negative cost without end where costs can fall without
end. `Search.run` therefore takes a number of turns. `turns` gives as many as any search without such a cycle takes,
and as many as any search takes over doubles, which fall to minus infinity or come to rest.

* `distances` — the cost of the cheapest way to every node, forwards or backwards;
* `inadmissible`, `isAdmissible` — nodes whose estimate exceeds their distance to the goal, and whether there are none;
* `inconsistent` — edges across which the estimate drops by more than they cost.
-/

namespace SearchLab.Graph

/-- A way found to a node and not tried yet: its cost and the node. -/
structure Lead (κ : Type) where
  cost : κ
  slot : Nat

/-- How far a search has come: the least cost found for every slot, and the leads, the next one first. -/
structure Search (κ : Type) where
  costs : Array κ
  leads : List (Lead κ)

/-- What a search walks: the steps from a slot, each to a slot at a cost. -/
abbrev Steps (κ : Type) : Type := Nat → List (Nat × κ)

section

variable {κ : Type} [Cost κ]

/-- The cheaper lead comes first, and of two equally cheap ones the one with the lower slot. -/
def Lead.before (a b : Lead κ) : Bool :=
  Cost.less a.cost b.cost || (!Cost.less b.cost a.cost && a.slot < b.slot)

/-- Puts a lead in its place, behind those that are not after it. -/
def Lead.insert (lead : Lead κ) : List (Lead κ) → List (Lead κ)
  | [] => [lead]
  | other :: leads => if lead.before other then lead :: other :: leads else other :: Lead.insert lead leads

/-- The least cost found for a slot. -/
def Search.cost (s : Search κ) (slot : Nat) : κ := s.costs.getD slot Cost.infinite

/-- Takes note of a step that was found from a node of cost `cost`, if it leads to a cheaper way. -/
def Search.relax (cost : κ) (s : Search κ) (step : Nat × κ) : Search κ :=
  let candidate := Cost.add cost step.2
  if Cost.less candidate (s.cost step.1) then
    { costs := s.costs.setIfInBounds step.1 candidate
      leads := Lead.insert ⟨candidate, step.1⟩ s.leads }
  else s

/-- Tries the next lead, unless a cheaper way to its node has been found since. -/
def Search.advance (steps : Steps κ) (s : Search κ) (lead : Lead κ) (leads : List (Lead κ)) : Search κ :=
  let s := { s with leads }
  if Cost.less (s.cost lead.slot) lead.cost then s
  else (steps lead.slot).foldl (Search.relax lead.cost) s

/-- Goes on until no lead is left, for at most so many turns. -/
def Search.run (steps : Steps κ) : Nat → Search κ → Option (Search κ)
  | 0, s => if s.leads.isEmpty then some s else none
  | turns + 1, s =>
    match s.leads with
    | [] => some s
    | lead :: leads => Search.run steps turns (s.advance steps lead leads)

end

/-- As many turns as a search needs that never improves on a node by going around a cycle, and as many as it takes
until every node has had every cost of 64 bits. -/
def turns (g : Graph) : Nat := (2 * g.edgeCount + 2) * (Nat.pow 2 g.nodeCount * Word.size)

section

variable {κ : Type} [Cost κ]

/-- The steps that leave a node, or that arrive at it; without weights each costs 1. -/
def steps (g : Graph) (weighted backwards : Bool) : Steps κ := fun slot =>
  let cost (v : EdgeView) : κ := if weighted then Cost.ofNumber v.edge.weight else Cost.ofNat 1
  if backwards then (g.arriving slot).map fun v => (v.source, cost v)
  else (g.leaving slot).map fun v => (v.target, cost v)

/-- The search before its first turn: only the origin is reached, at no cost. -/
def searchFrom (g : Graph) (origin : Nat) : Search κ :=
  { costs := (Array.replicate g.nodes.size Cost.infinite).setIfInBounds origin (Cost.ofNat 0)
    leads := [⟨Cost.ofNat 0, origin⟩] }

/-- The cost of the cheapest way between the origin and every node, in the order of the nodes; the ways lead
from the origin, or to it. There is no answer where the search does not end. -/
def distances (g : Graph) (origin : Nat) (weighted backwards : Bool) : Option (List (String × κ)) :=
  let unreached : List (String × κ) := g.nodeList.map fun n => (n.id, Cost.infinite)
  if (g.node? origin).isNone then some unreached
  else
    let g := g.reindex
    (Search.run (g.steps weighted backwards) g.turns (g.searchFrom origin)).map fun s =>
      g.nodeList.map fun n => (n.id, s.cost n.slot)

/-- The cost of the cheapest way from a node to every other. -/
def distancesFrom (g : Graph) (start : Nat) (weighted : Bool) : Option (List (String × κ)) :=
  g.distances start weighted false

/-- The cost of the cheapest way from every node to one. -/
def distancesTo (g : Graph) (goal : Nat) : Option (List (String × κ)) :=
  g.distances goal true true

/-- The graph after a search from or to a node: looking up the edges there has brought the index up to date. -/
def searched (g : Graph) (origin : Nat) : Graph :=
  if (g.node? origin).isSome then g.reindex else g

/-- A node whose estimate is more than it is away from the goal. -/
structure Overestimate (κ : Type) where
  id : String
  estimate : κ
  distance : κ

/-- The nodes whose estimate is more than they are away from the goal. -/
def inadmissible (g : Graph) : Option (List (Overestimate κ)) :=
  match g.goal with
  | none => some []
  | some goal =>
    (g.distancesTo goal).map fun found =>
      (g.nodeList.zip found).filterMap fun (n, _, distance) =>
        let estimate : κ := g.heuristic n.slot
        if Cost.less distance estimate then some ⟨n.id, estimate, distance⟩ else none

/-- Whether no estimate is more than its node is away from the goal. -/
def isAdmissible (g : Graph) (κ : Type) [Cost κ] : Option Bool :=
  (g.inadmissible (κ := κ)).map List.isEmpty

/-- An edge, in a direction in which it may be walked, across which the estimate drops by more than it costs. -/
structure Drop (κ : Type) where
  id : EdgeId
  sourceEstimate : κ
  weight : κ
  targetEstimate : κ

/-- The edges across which the estimate drops by more than they cost. -/
def inconsistent (g : Graph) : List (Drop κ) :=
  g.edgeList.flatMap fun edge =>
    [EdgeView.mk edge false, EdgeView.mk edge true].filterMap fun v =>
      let source : κ := g.heuristic v.source
      let target : κ := g.heuristic v.target
      let weight : κ := Cost.ofNumber v.edge.weight
      if g.isTraversable v && Cost.less target (Cost.sub source weight) then some ⟨v.id, source, weight, target⟩
      else none

end

end SearchLab.Graph
