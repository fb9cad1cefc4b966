import SearchLab.Graph.Basic

/-!
# Breadth-first reach

A breadth-first walk keeps the nodes that wait for their turn apart from those that were not seen. `fresh` takes
the nodes that a step finds out of the unseen ones, `reach` lists all nodes that the walk comes to.

* `fresh_length` — what is found is only moved, so a walk ends.
-/

namespace SearchLab

/-- The unseen ones among the nodes that were found, each once, and the nodes that stay unseen. -/
def fresh : (found unseen : List Nat) → List Nat × List Nat
  | [], unseen => ([], unseen)
  | slot :: found, unseen =>
    if slot ∈ unseen then
      let (news, rest) := fresh found (unseen.erase slot)
      (slot :: news, rest)
    else fresh found unseen

/-- Every unseen node is either found or stays unseen. -/
theorem fresh_length (found unseen : List Nat) :
    (fresh found unseen).1.length + (fresh found unseen).2.length = unseen.length := by
  induction found generalizing unseen with
  | nil => simp [fresh]
  | cons slot found ih =>
    unfold fresh
    split
    · rename_i h
      have erased := List.length_erase_of_mem h
      have positive := List.length_pos_of_mem h
      have := ih (unseen.erase slot)
      simp only [List.length_cons]
      omega
    · exact ih unseen

/-- The nodes that a walk comes to from those that wait, where `next` are the nodes one step behind a node. -/
def reach (next : Nat → List Nat) (waiting unseen : List Nat) : List Nat :=
  match waiting with
  | [] => []
  | slot :: waiting =>
    let found := fresh (next slot) unseen
    slot :: reach next (waiting ++ found.1) found.2
termination_by unseen.length + waiting.length
decreasing_by
  have := fresh_length (next slot) unseen
  simp only [List.length_append, List.length_cons]
  omega

/-- The slots of all nodes but one. -/
def Graph.otherSlots (g : Graph) (slot : Nat) : List Nat :=
  (g.nodeList.map Node.slot).filter (· != slot)

/-- A node and all nodes from which it can be reached, the nearest ones first. -/
def Graph.ancestors (g : Graph) (slot : Nat) : List Nat :=
  let g := g.reindex
  reach (fun s => (g.arriving s).map EdgeView.source) [slot] (g.otherSlots slot)

end SearchLab
