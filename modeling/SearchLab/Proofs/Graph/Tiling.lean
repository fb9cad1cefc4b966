import SearchLab.Proofs.Graph.Reachable
import SearchLab.Proofs.Graph.Resize

/-!
# The cells of any grid

Edges of a grid may be added, turned around and removed at will, but its cells come and go only with its size. So the
nodes of a grid are just the cells within its bounds, whatever was done with it, and no edit that completes edges ever
misses a cell.

* `Tiled.completeEdges`, `Tiled.setDiagonal`, `Tiled.resize` — they succeed, but for a size that drops the start or the
  goal, which leaves the grid alone;
* `Reachable.tiled` — the grids that operations lead to.
-/

namespace SearchLab.Graph

variable {spec : GridSpec} {g g' : Graph}

/-! ## What is done with a grid that keeps its size -/

/-- Completing edges leaves the cells and the two ends alone. -/
theorem completing_cells (origin : Graph) : Completing (SameCells origin) where
  reindex h := h.trans ⟨rfl, rfl, rfl, rfl, rfl⟩
  redraw h := h.trans ⟨rfl, rfl, rfl, rfl, rfl⟩
  link _ _ h := h.trans ⟨rfl, rfl, rfl, rfl, rfl⟩
  weigh id _ h := h.trans (.updateEdge _ id _)

namespace Tiled

/-- Where the nodes keep their slots and their places, they stay the cells of the grid. -/
theorem of_plan (h : Tiled spec g) (harena : g'.Arena) (hplan : SamePlan g g') : Tiled spec g' := by
  have hslots : ∀ id, g'.slot? id = g.slot? id := fun id => by rw [slot?, slot?, hplan.slots]
  have hplaces : ∀ s, g'.placeOf? s = g.placeOf? s := hplan.places
  refine ⟨⟨harena, ?_⟩, hplan.grid.trans h.grid, fun hs => h.inside ((hplaces _).symm.trans hs), ?_⟩
  · intro s n hn
    have hplace : g.placeOf? s = some (n.x, n.y) := by rw [← hplaces, placeOf?_of_node? hn]
    have hslot := (hslots _).trans (h.slot?_cellId.mpr hplace)
    obtain ⟨m, hm, hid⟩ := (harena.lookup _ _).mp hslot
    obtain rfl : n = m := Option.some.inj (hn.symm.trans hm)
    exact hid
  · intro x y hx hy
    obtain ⟨s, hs⟩ := h.filled hx hy
    exact ⟨s, (hslots _).trans hs⟩

theorem of_cells (h : Tiled spec g) (harena : g'.Arena) (hcells : SameCells g g') : Tiled spec g' :=
  h.of_plan harena (.of_nodes hcells.grid hcells.slots hcells.nodes)

/-! ## Completing edges -/

/-- The edge from a cell to one beside it is completed, whatever edges there are. -/
theorem completeEdge (h : Tiled spec g) (hcells : SameCells g g') {x y : Nat} {cell : Neighbour}
    (hcell : cell ∈ neighbours spec.width spec.height x y) (slot : Nat) (d : Diagonal) :
    ∃ g'', Graph.completeEdge slot d cell g' = .ok () g'' := by
  obtain ⟨-, hx, hy⟩ := mem_neighbours.mp hcell
  obtain ⟨target, htarget⟩ := h.filled hx hy
  have hslot : g'.cellSlot cell.x cell.y = .ok target := by rw [cellSlot, hcells.slot?, htarget]
  exact ⟨_, by simp only [Graph.completeEdge, hslot]; rfl⟩

/-- Completing the edges around a cell succeeds. -/
theorem completeEdges (h : Tiled spec g) {slot : Nat} (hlive : g.Live slot) :
    ∃ g', Graph.completeEdges slot g = .ok () g' ∧ SameCells g g' ∧ Tiled spec g' := by
  obtain ⟨n, hn⟩ := live_iff.mp hlive
  have hcells : SameCells g g.reindex ∧ g.reindex.grid = some spec := ⟨⟨rfl, rfl, rfl, rfl, rfl⟩, h.grid⟩
  obtain ⟨g', hall, hsame, -⟩ := Edit.Keeps.forM_ok (neighbours spec.width spec.height n.x n.y)
    (Graph.completeEdge slot spec.diagonal)
    (fun cell _ => (completing_cells g).edge slot spec cell)
    (fun cell hcell s hs => h.completeEdge hs.1 hcell slot spec.diagonal) hcells
  have hedges : Graph.completeEdges slot g = .ok () g' := by
    rw [← hall]
    simp [Graph.completeEdges, gridSpec, h.grid, hn]
  have hmutated := keeps_completeEdges slot g ⟨h.arena, .refl⟩
  rw [Edit.after_ok hedges] at hmutated
  exact ⟨g', hedges, hsame, h.of_cells hmutated.arena hsame⟩

/-- Completing the edges around all cells succeeds. -/
theorem completeAllEdges (h : Tiled spec g) :
    ∃ g', Graph.completeAllEdges g = .ok () g' ∧ SameCells g g' ∧ Tiled spec g' := by
  obtain ⟨g₁, hall, ht, hcells⟩ := Edit.Keeps.forM_ok (P := fun s => Tiled spec s ∧ SameCells g s)
    (g.nodeList.map Node.slot) Graph.completeEdges
    (by
      intro slot hslot s ⟨ht, hcells⟩
      have hmutated := keeps_completeEdges slot s ⟨ht.arena, .refl⟩
      have hsame := (completing_cells s).edges slot s (.refl s)
      exact ⟨ht.of_cells hmutated.arena hsame, hcells.trans hsame⟩)
    (by
      intro slot hslot s ⟨ht, hcells⟩
      obtain ⟨n, hn, rfl⟩ := List.mem_map.mp hslot
      obtain ⟨s', hs'⟩ := mem_nodeList.mp hn
      have hlive : s.Live n.slot := by
        rw [h.arena.slot hs', live_iff]
        exact ⟨n, (hcells.node? s').trans hs'⟩
      obtain ⟨t, hedges, -⟩ := ht.completeEdges hlive
      exact ⟨t, hedges⟩)
    ⟨h, .refl g⟩
  have hdrawn : SameCells g₁ g₁.redraw := ⟨rfl, rfl, rfl, rfl, rfl⟩
  refine ⟨g₁.redraw, ?_, hcells.trans hdrawn, ht.of_cells ((Mutation.settings g₁ true _ _ _).arena ht.arena) hdrawn⟩
  simp [Graph.completeAllEdges, hall]

/-- Another cost of diagonals is taken. -/
theorem setDiagonal (h : Tiled spec g) (d : Diagonal) :
    ∃ g', Graph.setDiagonal d g = .ok () g' ∧ SameCells { g with grid := some { spec with diagonal := d } } g' ∧
      Tiled { spec with diagonal := d } g' := by
  have hset : Tiled { spec with diagonal := d } { g with grid := some { spec with diagonal := d } } :=
    ⟨h.toPlaced.withGrid _, rfl, h.inside, h.filled⟩
  obtain ⟨g', hedges, hcells, ht⟩ := hset.completeAllEdges
  refine ⟨g', ?_, hcells, ht⟩
  rw [← hedges]
  simp [Graph.setDiagonal, gridSpec, h.grid]

/-- **Another size is refused or taken**: it is refused just where it would drop the start or the goal, and the grid is
left alone then. -/
theorem resize (h : Tiled spec g) (width height : Nat) :
    (g.DropsEnd width height ∧ Graph.resize width height g = .error .resizeDropsEnd g) ∨
      (¬ g.DropsEnd width height ∧
        ∃ g', Graph.resize width height g = .ok () g' ∧ Tiled { spec with width, height } g') := by
  rw [resize_eq h.grid, ← any_slotsBeyond]
  split
  · rename_i hends
    exact .inl ⟨hends, rfl⟩
  · rename_i hends
    obtain ⟨g₁, hcells, -, ht⟩ := tiled_resized h.toPlaced { spec with width, height }
    obtain ⟨g', hedges, -, htiled⟩ := ht.completeAllEdges
    refine .inr ⟨hends, g', ?_, htiled⟩
    rw [hcells]
    exact hedges

end Tiled

/-! ## Whatever is done with a grid -/

/-- The nodes of a graph are the cells of a grid. -/
def IsTiled (g : Graph) : Prop := ∃ spec, Tiled spec g

theorem IsTiled.isGrid (h : g.IsTiled) : g.isGrid = true := by
  obtain ⟨spec, ht⟩ := h
  rw [Graph.isGrid, ht.grid, Option.isSome_some]

/-- The nodes of a grid stay its cells. -/
theorem stable_isTiled : Stable IsTiled where
  step hg hmutation hplan := by
    obtain ⟨spec, ht⟩ := hg
    exact ⟨spec, ht.of_plan (hmutation.arena ht.arena) hplan⟩
  addNode id data g hg := by
    have hrefused : addNode id data g = .error .gridNodeAdded g := by simp [addNode, hg.isGrid]
    rwa [Edit.after_error hrefused]
  removeNode slot g hg := by
    have hrefused : removeNode slot g = .error .gridNodeRemoved g := by simp [removeNode, hg.isGrid]
    rwa [Edit.after_error hrefused]
  completeEdges slot g hg := by
    obtain ⟨spec, ht⟩ := hg
    have hmutated := keeps_completeEdges slot g ⟨ht.arena, .refl⟩
    exact ⟨spec, ht.of_cells hmutated.arena ((completing_cells g).edges slot g (.refl g))⟩
  completeAllEdges g hg := by
    obtain ⟨spec, ht⟩ := hg
    obtain ⟨g', hedges, -, ht'⟩ := ht.completeAllEdges
    rw [Edit.after_ok hedges]
    exact ⟨spec, ht'⟩
  setDiagonal d g hg := by
    obtain ⟨spec, ht⟩ := hg
    obtain ⟨g', hset, -, ht'⟩ := ht.setDiagonal d
    rw [Edit.after_ok hset]
    exact ⟨_, ht'⟩
  resize width height g hg := by
    obtain ⟨spec, ht⟩ := hg
    rcases ht.resize width height with ⟨-, hrefused⟩ | ⟨-, g', hsized, ht'⟩
    · rw [Edit.after_error hrefused]
      exact ⟨spec, ht⟩
    · rw [Edit.after_ok hsized]
      exact ⟨_, ht'⟩

/-- A new graph is free-form, or its nodes are the cells of a grid. -/
theorem Fresh.tiled (h : Fresh g) : g.grid = none ∨ g.IsTiled := by
  cases h with
  | freeForm => exact .inl rfl
  | grid hmade =>
      obtain ⟨g', hmade', hlattice, -⟩ := lattice_ofGrid _ _ (completable_unchecked _)
      obtain rfl := Except.ok.inj (hmade.symm.trans hmade')
      exact .inr ⟨_, hlattice.tiled⟩

/-- **The nodes of a grid are just the cells within its bounds**, whatever operations have been made of it, and even
where they failed. -/
theorem Reachable.tiled (h : g.Reachable) : g.grid = none ∨ g.IsTiled := by
  induction h with
  | fresh hfresh => exact hfresh.tiled
  | read hread =>
      rcases Notation.accepted_or_standing hread with haccepted | ⟨_, _, _, _, _, _, hstanding⟩
      · have hfree := haccepted.mutated.isGrid
        exact .inl (by simpa [isGrid, Graph.empty] using hfree)
      · obtain ⟨d, hlattice, -⟩ := hstanding.lattice
        exact .inr ⟨_, hlattice.tiled⟩
  | run hreach op ih =>
      rcases ih with hfree | htiled
      · have hkind := (op.mutated_run hreach.arena_indexed.1).isGrid
        exact .inl (by simpa [isGrid, hfree] using hkind)
      · exact .inr (stable_isTiled.edit op _ htiled)

/-- A reachable grid has just the cells within its bounds. -/
theorem Reachable.tiled_of_grid (h : g.Reachable) (hgrid : g.grid = some spec) : Tiled spec g := by
  rcases h.tiled with hfree | ⟨spec', htiled⟩
  · cases hfree.symm.trans hgrid
  · obtain rfl : spec' = spec := Option.some.inj (htiled.grid.symm.trans hgrid)
    exact htiled

end SearchLab.Graph
