import SearchLab.Proofs.Graph.Settled
import SearchLab.Proofs.Replay.Batch

/-!
# Cells that are toggled and toggled back

The command that opens or blocks a node knows what the data of the node said before, and taken back it restores just
that. But on a grid it also completes the edges around the cell, both ways, and of these it knows nothing. So edges that
were removed there are laid again, and those across corners that had another cost lose it.

* `Change.unflipped_flipped` — a node gets back what it had;
* `Change.refresh_settles` — what becomes of the edges;
* `toggle_taken_back_iff` — which toggles leave the graph as it was;
* `toggle_leaves_traces` — that not all do.
-/

namespace SearchLab

open Graph (Mends)

variable {g g' g₁ g₂ : Graph} {id : String} {slot : Nat} {n : Node} {d : Diagonal}

/-! ## The node -/

namespace Graph

/-- What is made of the node in a slot is a matter of this node only. -/
theorem modifyNode_congr (hn : g.node? slot = some n) {f f' : Node → Node} (hf : f n = f' n) :
    g.modifyNode slot f = g.modifyNode slot f' := by
  have hentry : g.nodes[slot]? = some (some n) := Option.join_eq_some_iff.mp hn
  have hnodes : g.nodes.modify slot (·.map f) = g.nodes.modify slot (·.map f') := by
    apply Array.ext_getElem?
    intro s
    rw [Array.getElem?_modify, Array.getElem?_modify]
    by_cases hs : slot = s
    · subst hs
      simp [hentry, hf]
    · simp [hs]
  rw [modifyNode, hnodes, modifyNode]

/-- A node that is changed to and fro is as it was. -/
theorem nodes_modify_back (hn : g.node? slot = some n) {f f' : Node → Node} (hback : f' (f n) = n) :
    (g.nodes.modify slot (·.map f)).modify slot (·.map f') = g.nodes := by
  have hentry : g.nodes[slot]? = some (some n) := Option.join_eq_some_iff.mp hn
  apply Array.ext_getElem?
  intro s
  rw [Array.getElem?_modify, Array.getElem?_modify]
  by_cases hs : slot = s
  · subst hs
    simp [hentry, hback]
  · simp [hs]

/-- What there is to complete has nothing to do with the bags of nodes. -/
theorem settled_modifyNode {f : Node → Node} (hf : SameNode f) :
    (g.modifyNode slot f).Settled slot ↔ g.Settled slot :=
  settled_iff_of_plan (.modifyNode g slot hf) rfl

/-- A node may be changed in its bags. -/
theorem Reachable.modifyNode (hg : g.Reachable) (hn : g.node? slot = some n) {f : Node → Node} {data style : Bag}
    (hf : f n = { n with data, style }) : (g.modifyNode slot f).Reachable := by
  have hrun : (Operation.setNode slot data style).run g = g.modifyNode slot f := modifyNode_congr hn hf.symm
  exact hrun ▸ hg.run (.setNode slot data style)

end Graph

namespace Change

/-- A node that was open is blocked, and one that was blocked is open. -/
def flipped (n : Node) : Node := { n with data := n.data.set "traversable" (.bool (!n.isTraversable)) }

/-- A node whose data say again what they said before. -/
def unflipped (previous : Option Json) (n : Node) : Node :=
  match previous with
  | none => { n with data := n.data.erase "traversable" }
  | some value => { n with data := n.data.set "traversable" value }

theorem sameNode_flipped : Graph.SameNode flipped := fun _ => ⟨rfl, rfl, rfl, rfl⟩

theorem sameNode_unflipped (previous : Option Json) : Graph.SameNode (unflipped previous) := by
  intro n
  cases previous <;> exact ⟨rfl, rfl, rfl, rfl⟩

/-- A node gets back what it had, and its data stay in their order. -/
theorem unflipped_flipped (n : Node) : unflipped (n.data.get? "traversable") (flipped n) = n := by
  cases hprevious : n.data.get? "traversable" with
  | none => simp [unflipped, flipped, Bag.erase_set_of_get?_eq_none _ hprevious]
  | some value => simp [unflipped, flipped, Bag.set_set, Bag.set_of_get? hprevious]

section Edits

variable (hslot : g.slot? id = some slot)
include hslot

theorem check_slotOf : Edit.check (fun g : Graph => g.slotOf id) g = .ok slot g :=
  Edit.check_ok (by rw [Graph.slotOf, hslot])

theorem flipNode_eq (hn : g.node? slot = some n) :
    flipNode id g = .ok (n.data.get? "traversable") (g.modifyNode slot flipped) := by
  rw [flipNode, Edit.bind_ok (check_slotOf hslot), Edit.get_bind, hn]
  rfl

theorem unflipNode_eq (previous : Option Json) :
    unflipNode id (some previous) g = .ok () (g.modifyNode slot (unflipped previous)) := by
  rw [unflipNode, Edit.bind_ok (check_slotOf hslot), Edit.modify_ok]
  cases previous <;> rfl

/-! ## The edges -/

/-- Refreshing a node settles it, and changes no edge exactly if it was settled before. -/
theorem refresh_settles (hg : g.Reachable) (hd : ∀ spec, g.grid = some spec → spec.diagonal = d) :
    ∃ g', refresh id g = .ok () g' ∧ g'.Reachable ∧ Mends d slot g g' ∧ g'.Settled slot ∧
      (g'.edgeList = g.edgeList ↔ g.Settled slot) := by
  obtain ⟨harena, hindexed⟩ := hg.arena_indexed
  have hrefresh : refresh id g = (if g.isGrid then Graph.completeEdges slot else pure ()) g := by
    rw [refresh, Edit.bind_ok (check_slotOf hslot), Edit.get_bind]
  cases hgrid : g.grid with
  | none =>
      have hsettled := Graph.settled_of_freeForm hgrid slot
      refine ⟨g, ?_, hg, .refl g, hsettled, fun _ => hsettled, fun _ => rfl⟩
      rw [hrefresh, Graph.isGrid, hgrid]
      rfl
  | some spec =>
      obtain ⟨g', hedges, hmends, hsettled, hiff⟩ :=
        Graph.completeEdges_settles (hg.tiled_of_grid hgrid) hindexed (harena.live_of_slot? hslot)
      obtain rfl := hd spec hgrid
      have hrun : (Graph.Operation.completeEdges slot).run g = g' := Edit.after_ok hedges
      refine ⟨g', ?_, hrun ▸ hg.run (.completeEdges slot), hmends, hsettled, hiff⟩
      rw [hrefresh, Graph.isGrid, hgrid, Option.isSome_some, if_pos rfl, hedges]

end Edits

end Change

/-! ## The command -/

theorem execute_toggle {previous : Option Json} (hflip : Change.flipNode id g = .ok previous g₁)
    (hrefresh : Change.refresh id g₁ = .ok () g₂) (below : Layers) :
    Command.execute (Change.toggleNode id, g :: below) =
      .ok () ({ Change.toggleNode id with body := .toggle id (some previous), done := true }, g₂ :: below) := by
  rw [Command.execute_of_not_done rfl]
  simp [Reversible.apply, Change.apply, Change.toggleNode, onTop, hflip, Change.keeping, hrefresh]

theorem revert_toggle {previous : Option (Option Json)} (hflip : Change.unflipNode id previous g = .ok () g₁)
    (hrefresh : Change.refresh id g₁ = .ok () g₂) (below : Layers) :
    Command.revert ({ Change.toggleNode id with body := .toggle id previous, done := true }, g :: below) =
      .ok () (Change.toggleNode id, g₂ :: below) := by
  rw [Command.revert_of_done rfl]
  simp [Reversible.revert, Change.revert, Change.toggleNode, onTop, hflip, Change.keeping, hrefresh]

/-- A toggle and taking it back both succeed. They settle the node, and all but its edges is as it was. -/
theorem exists_toggled_back (hg : g.Reachable) (hslot : g.slot? id = some slot)
    (hd : ∀ spec, g.grid = some spec → spec.diagonal = d) (below : Layers) :
    ∃ c g₁ g₂, Command.execute (Change.toggleNode id, g :: below) = .ok () (c, g₁ :: below) ∧
      Command.revert (c, g₁ :: below) = .ok () (Change.toggleNode id, g₂ :: below) ∧
      Mends d slot g g₂ ∧ (g₂.edgeList = g.edgeList ↔ g.Settled slot) := by
  obtain ⟨n, hn, -⟩ := (hg.arena_indexed.1.lookup _ _).mp hslot
  have hflip := Change.flipNode_eq hslot hn
  have hflipped : (g.modifyNode slot Change.flipped).Reachable := hg.modifyNode hn rfl
  obtain ⟨g₁, hrefresh, hg₁, hmends, hsettled, hiff⟩ :=
    Change.refresh_settles (g := g.modifyNode slot Change.flipped) hslot hflipped hd
  rw [Graph.settled_modifyNode Change.sameNode_flipped] at hiff
  -- Behind the first half the cell is settled, so the second half changes no edge.
  have hslot₁ : g₁.slot? id = some slot := (hmends.slot? id).trans hslot
  have hn₁ : g₁.node? slot = some (Change.flipped n) := by
    rw [hmends.node?, Graph.node?_modifyNode, if_pos rfl, hn, Option.map_some]
  have hunflip := Change.unflipNode_eq hslot₁ (n.data.get? "traversable")
  have hunflipped : (g₁.modifyNode slot (Change.unflipped (n.data.get? "traversable"))).Reachable :=
    hg₁.modifyNode hn₁ (Change.unflipped_flipped n)
  obtain ⟨g₂, hrefresh', hg₂, hmends', -, hiff'⟩ :=
    Change.refresh_settles (g := g₁.modifyNode slot (Change.unflipped (n.data.get? "traversable"))) hslot₁ hunflipped
      (d := d) fun spec hspec => hd spec (hmends.grid.symm.trans hspec)
  rw [Graph.settled_modifyNode (Change.sameNode_unflipped _)] at hiff'
  have hedges := hiff'.mpr hsettled
  refine ⟨_, g₁, g₂, execute_toggle hflip hrefresh below, revert_toggle hunflip hrefresh' below, ?_, ?_⟩
  · exact
      { grid := hmends'.grid.trans hmends.grid
        nodes := by
          rw [hmends'.nodes, Graph.modifyNode, hmends.nodes]
          exact Graph.nodes_modify_back hn (Change.unflipped_flipped n)
        slots := hmends'.slots.trans hmends.slots
        start := hmends'.start.trans hmends.start
        goal := hmends'.goal.trans hmends.goal
        outcome := hmends'.outcome.trans hmends.outcome
        defaultBidirectional := hmends'.defaultBidirectional.trans hmends.defaultBidirectional
        physicsEnabled := hmends'.physicsEnabled.trans hmends.physicsEnabled
        sound := fun _ => hg₂.arena_indexed
        edges := hedges ▸ hmends.edges }
  · rw [hedges]
    exact hiff

/-- What is written of a graph is a matter of its nodes, its edges and its ends. -/
theorem Notation.write_congr (hcells : Graph.SameCells g g') (hedges : g'.edgeList = g.edgeList) :
    Notation.write g' = Notation.write g := by
  obtain ⟨grid, nodes, slots, edges, index, needsRedraw, start, goal, outcome, bidirectional, physics⟩ := g
  obtain ⟨grid', nodes', slots', edges', index', needsRedraw', start', goal', outcome', bidirectional', physics'⟩ := g'
  obtain ⟨hgrid, hnodes, hslots, hstart, hgoal⟩ := hcells
  dsimp only at hgrid hnodes hslots hstart hgoal
  subst hgrid hnodes hslots hstart hgoal
  unfold Notation.write
  rw [Graph.isGrid, Graph.isGrid]
  unfold Notation.Grid.write Notation.FreeForm.write
  rw [hedges]
  rfl

theorem Graph.exists_diagonal (g : Graph) : ∃ d, ∀ spec, g.grid = some spec → spec.diagonal = d := by
  cases g.grid with
  | none => exact ⟨.disabled, by simp⟩
  | some spec => exact ⟨spec.diagonal, by simp⟩

/-- **A toggle that is taken back leaves the edges as they were just where the node was settled.** On every reachable
graph, and for every node of it, the command that toggles the node succeeds, and so does taking it back. The nodes are
then what they were, in their data and styles too, and so are the start, the goal and all else but the edges. On a grid
the edges are those that were there, mended, and behind them new ones from the node. They are just the same exactly if
the node was `Settled`, and then the same is written of the graph. -/
theorem toggle_taken_back_iff (hg : g.Reachable) (hslot : g.slot? id = some slot) (below : Layers) :
    ∃ c g₁ g₂, Command.execute (Change.toggleNode id, g :: below) = .ok () (c, g₁ :: below) ∧
      Command.revert (c, g₁ :: below) = .ok () (Change.toggleNode id, g₂ :: below) ∧
      Graph.SameCells g g₂ ∧ (∀ spec, g.grid = some spec → Mends spec.diagonal slot g g₂) ∧
      (g₂.edgeList = g.edgeList ↔ g.Settled slot) ∧ (g.Settled slot → Notation.write g₂ = Notation.write g) := by
  obtain ⟨d, hd⟩ := g.exists_diagonal
  obtain ⟨c, g₁, g₂, hexecute, hrevert, hmends, hiff⟩ := exists_toggled_back hg hslot hd below
  refine ⟨c, g₁, g₂, hexecute, hrevert, hmends.toSameCells, ?_, hiff, ?_⟩
  · intro spec hgrid
    rw [hd spec hgrid]
    exact hmends
  · intro hsettled
    exact Notation.write_congr hmends.toSameCells (hiff.mpr hsettled)

/-- On a new grid of four cells a cell is blocked, and opened again. -/
theorem toggle_taken_back_iff_sample :
    ∃ g : Graph, Graph.ofGrid 2 2 .euclidean = .ok g ∧
      ∃ c g₁ g₂, Command.execute (Change.toggleNode (Graph.cellId 0 0), [g]) = .ok () (c, [g₁]) ∧
        Command.revert (c, [g₁]) = .ok () (Change.toggleNode (Graph.cellId 0 0), [g₂]) ∧
        g₂.nodes = g.nodes ∧ g₂.edgeList = g.edgeList ∧ Notation.write g₂ = Notation.write g := by
  obtain ⟨g, hmade, hlattice, -, -, -, hweighed⟩ := Graph.lattice_ofGrid 2 2 (Graph.completable_unchecked .euclidean)
  obtain ⟨slot, hslot⟩ := hlattice.tiled.filled (x := 0) (y := 0) (by decide) (by decide)
  obtain ⟨c, g₁, g₂, hexecute, hrevert, hcells, -, hiff, hwrite⟩ :=
    toggle_taken_back_iff (.fresh (.grid hmade)) hslot []
  have hsettled := Graph.settled_of_lattice hlattice hweighed slot
  exact ⟨g, hmade, c, g₁, g₂, hexecute, hrevert, hcells.nodes, hiff.mpr hsettled, hwrite hsettled⟩

/-! ## Toggles that leave traces -/

/-- Not every toggle that is taken back leaves the edges as they were: the cost of diagonals comes back to an edge that
had lost it. -/
theorem toggle_leaves_traces :
    ¬ ∀ (g g₁ g₂ : Graph) (id : String) (slot : Nat) (below : Layers) (c : Command Change),
      g.Reachable → g.slot? id = some slot →
        Command.execute (Change.toggleNode id, g :: below) = .ok () (c, g₁ :: below) →
        Command.revert (c, g₁ :: below) = .ok () (Change.toggleNode id, g₂ :: below) → g₂.edgeList = g.edgeList := by
  intro hundone
  obtain ⟨g, slot, hg, hslot, -, hunsettled⟩ := Graph.exists_unsettled
  obtain ⟨d, hd⟩ := g.exists_diagonal
  obtain ⟨c, g₁, g₂, hexecute, hrevert, -, hiff⟩ := exists_toggled_back hg hslot hd []
  exact hunsettled (hiff.mp (hundone g g₁ g₂ _ slot [] c hg hslot hexecute hrevert))

end SearchLab
