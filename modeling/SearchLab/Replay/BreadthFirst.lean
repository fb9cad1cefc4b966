import SearchLab.Graph.Reach
import SearchLab.Replay.Recorder

/-!
# Breadth-first search

The search follows the edges of the nodes in the order in which it found them, until it comes to the goal or no
node is left. `events` is the search by itself; `breadthFirst` tells it to a recorder.

* `events` ends because each node leaves the unseen ones, waits, and is taken from the waiting ones once.
-/

namespace SearchLab

/-- What happens in a breadth-first search. -/
inductive Event where
  /-- The edges of a node are followed, to these nodes. -/
  | expand (slot : Nat) (next : List Nat)
  /-- A node is found while these nodes wait. -/
  | visit (slot : Nat) (waiting : List Nat)
  | success
  | failure
deriving DecidableEq, Repr

/-- Nodes are found one after the other, while some wait. -/
def visits : (waiting found : List Nat) → List Event
  | _, [] => []
  | waiting, slot :: found => .visit slot waiting :: visits (waiting ++ [slot]) found

/-- What happens from here on in a search for `goal`, where `next` are the nodes one step behind a node. -/
def eventsFrom (next : Nat → List Nat) (goal : Nat) (waiting unseen : List Nat) : List Event :=
  match waiting with
  | [] => [.failure]
  | slot :: waiting =>
    let slots := next slot
    if slot = goal then [.expand slot slots, .success]
    else
      let found := fresh slots unseen
      .expand slot slots :: (visits waiting found.1 ++ eventsFrom next goal (waiting ++ found.1) found.2)
termination_by unseen.length + waiting.length
decreasing_by
  have := fresh_length (next slot) unseen
  simp only [List.length_append, List.length_cons]
  omega

/-- What happens in a breadth-first search of a graph. -/
def events (g : Graph) (start goal : Nat) : List Event :=
  let g := g.reindex
  eventsFrom (fun slot => (g.successors slot).map Node.slot) goal [start] (g.otherSlots start)

/-- The ids of some nodes in one line. -/
def listIds (g : Graph) (slots : List Nat) : String := ", ".intercalate (slots.filterMap g.idOf?)

/-- Tells what happened to a recorder. -/
def Event.record (g : Graph) : Event → Edit Recorder Unit
  | .expand slot next =>
    Recorder.expand slot (.text s!"Expanding node {listIds g [slot]} with neighbors {listIds g next}")
  | .visit slot waiting =>
    Recorder.visit slot
      (.text s!"Visiting node {listIds g [slot]}, list of nodes to visit: [{listIds g waiting}]")
  | .success => do
    let _ ← Recorder.success .null
  | .failure => do
    let _ ← Recorder.failure .null

/-- The solver that searches breadth first. -/
def breadthFirst : Solver := fun g start goal => do
  let happened := events g start goal
  happened.forM (Event.record g)
  return happened.contains .success

end SearchLab
