import SearchLab.Proofs.Graph.Diagonal
import SearchLab.Proofs.Graph.Lattice

/-!
# Grids stay lattices

A grid starts out as a lattice, and a new size or a new cost of diagonals makes it one again. `Adjustment` lists what
else may be done with a grid as long as nothing is taken away from its edges: bags of nodes are replaced, keys are set
on edges, edges are turned around, start and goal are moved.

* `lattice_ofGrid`, `Lattice.setDiagonal`, `Lattice.resize` — the edits that lay cells and edges;
* `lattice_adjustAll` — whatever adjustments are made of a grid, it stays a lattice.
-/

namespace SearchLab.Graph

variable {Fit : Contact → Edge → Prop} {spec : GridSpec} {g : Graph}

/-! ## Laying cells -/

/-- One graph comes of another by adding cells within some bounds, with nothing on them. -/
structure Lays (width height : Nat) (g g' : Graph) : Prop where
  grid : g'.grid = g.grid
  start : g'.start = g.start
  goal : g'.goal = g.goal
  kept : ∀ {s n}, g.node? s = some n → g'.node? s = some n
  added : ∀ {s n}, g'.node? s = some n →
    g.node? s = some n ∨ (n.x < width ∧ n.y < height ∧ n.data = [] ∧ n.style = [])
  wired : ∀ {Fit}, Wired Fit g → Wired Fit g'

namespace Lays

variable {width height : Nat} {g' g'' : Graph}

theorem refl (g : Graph) : Lays width height g g :=
  ⟨rfl, rfl, rfl, id, .inl, id⟩

theorem trans (h : Lays width height g g') (h' : Lays width height g' g'') : Lays width height g g'' where
  grid := h'.grid.trans h.grid
  start := h'.start.trans h.start
  goal := h'.goal.trans h.goal
  kept hn := h'.kept (h.kept hn)
  added hn := (h'.added hn).elim h.added .inr
  wired hg := h'.wired (h.wired hg)

theorem placeOf? (h : Lays width height g g') {s : Nat} {p : Nat × Nat} (hs : g.placeOf? s = some p) :
    g'.placeOf? s = some p := by
  obtain ⟨n, hn, rfl⟩ := Option.map_eq_some_iff.mp hs
  rw [Graph.placeOf?, h.kept hn]
  rfl

end Lays

/-- Two nodes touch as before where they are kept. -/
theorem contact?_of_kept {g' : Graph} {a b : Nat} {c : Contact} (ha : ∀ n, g.node? a = some n → g'.node? a = some n)
    (hb : ∀ n, g.node? b = some n → g'.node? b = some n) (h : g.contact? a b = some c) : g'.contact? a b = some c := by
  unfold contact? at h ⊢
  split at h
  · rename_i hma hnb
    simp only [ha _ hma, hb _ hnb]
    exact h
  · exact absurd h (by simp)

/-- A cell that is not there yet can be laid. -/
theorem lays_withNode {width height x y : Nat} (hx : x < width) (hy : y < height)
    (hnew : g.slot? (cellId x y) = none) : Lays width height g (g.withNode (cellId x y) x y []) := by
  have hmutation := Mutation.addNode g x y [] hnew
  have hkept : ∀ {s n}, g.node? s = some n → (g.withNode (cellId x y) x y []).node? s = some n := by
    intro s n hn
    rw [node?_withNode, if_neg, hn]
    rintro rfl
    rw [node?_size] at hn
    exact absurd hn (by simp)
  refine ⟨rfl, rfl, rfl, hkept, ?_, ?_⟩
  · intro s n hn
    rw [node?_withNode] at hn
    split at hn
    · cases hn
      exact .inr ⟨hx, hy, rfl, rfl⟩
    · exact .inl hn
  · intro Fit h
    refine ⟨hmutation.arena h.arena, hmutation.indexed h.indexed, ?_, ?_, h.single⟩
    · intro s n hn
      rw [node?_withNode] at hn
      split at hn
      · cases hn
        rfl
      · exact h.named hn
    · intro p e he
      obtain ⟨c, hcontact, hfits⟩ := h.fits (p := p) he
      exact ⟨c, contact?_of_kept (fun _ => hkept) (fun _ => hkept) hcontact, hfits⟩

/-- Laying a cell leads to a node in its place. -/
theorem lays_insertCell (h : g.Placed) {width height x y : Nat} (hx : x < width) (hy : y < height) :
    ∃ g', insertCell (x, y) g = .ok () g' ∧ Lays width height g g' ∧ g'.Placed ∧ ∃ s, g'.placeOf? s = some (x, y) := by
  cases hslot : g.slot? (cellId x y) with
  | some s =>
      exact ⟨g, insertCell_of_some hslot, .refl g, h, s, h.slot?_cellId.mp hslot⟩
  | none =>
      refine ⟨g.withNode (cellId x y) x y [], insertCell_of_none hslot, lays_withNode hx hy hslot,
        ⟨h.arena.withNode x y [] hslot, ?_⟩, g.nodes.size, ?_⟩
      · intro s n hn
        rw [node?_withNode] at hn
        split at hn
        · cases hn
          rfl
        · exact h.named hn
      · simp [placeOf?, node?_withNode]

/-- Laying all cells within some bounds. -/
theorem lays_cells (h : g.Placed) (width height : Nat) :
    ∃ g', (cells width height).forM insertCell g = .ok () g' ∧ Lays width height g g' ∧ g'.Placed ∧
      ∀ {x y}, x < width → y < height → ∃ s, g'.placeOf? s = some (x, y) := by
  obtain ⟨g', hall, ⟨hlays, hplaced⟩, hcells⟩ := Edit.forM_reaches (cells width height) insertCell
    (fun s t => Lays width height s t ∧ (s.Placed → t.Placed)) (fun cell s => ∃ slot, s.placeOf? slot = some cell) g
    (fun s => ⟨.refl s, id⟩) (fun hs ht => ⟨hs.1.trans ht.1, ht.2 ∘ hs.2⟩)
    (fun hs ⟨slot, hslot⟩ => ⟨slot, hs.1.placeOf? hslot⟩)
    (by
      rintro ⟨x, y⟩ hcell s ⟨_, hs⟩
      obtain ⟨hx, hy⟩ : x < width ∧ y < height := by simpa [cells] using hcell
      obtain ⟨t, hinsert, hlays, ht, hplace⟩ := lays_insertCell (hs h) hx hy
      exact ⟨t, hinsert, ⟨hlays, fun _ => ht⟩, hplace⟩)
  refine ⟨g', hall, hlays, hplaced h, fun {x y} hx hy => hcells (x, y) ?_⟩
  simp [cells, hx, hy]

/-! ## New grids and new costs -/

namespace Wired

/-- The graph without nodes is wired, whatever its size is to become. -/
theorem empty (Fit : Contact → Edge → Prop) (grid : Option GridSpec) : Wired Fit { grid } where
  arena := .empty grid
  indexed := by
    intro index hindex slot
    cases hindex
    rfl
  named := by simp [node?]
  fits := by simp [edgeAt?]
  single := by simp [edgeAt?]

/-- Wiring does not depend on the size. -/
theorem withGrid (h : Wired Fit g) (grid : Option GridSpec) : Wired Fit { g with grid } :=
  ⟨⟨h.arena.slot, h.arena.lookup, h.arena.number, h.arena.ends, h.arena.start, h.arena.goal⟩, h.indexed, h.named,
    h.fits, h.single⟩

end Wired

/-- Each edge across a corner has the cost of diagonals. -/
def Weighed (d : Diagonal) (g : Graph) : Prop :=
  ∀ {p e}, g.edgeAt? p = some e → g.contact? e.source e.target = some .diagonal → weighed d e.data = e.data

/-- **A new grid is a lattice** with nothing on its cells. -/
theorem lattice_ofGrid (width height : Nat) {d : Diagonal} (hfit : Completable Fit d) :
    ∃ g, ofGrid width height d = .ok g ∧ Lattice Fit ⟨width, height, d⟩ g ∧
      (∀ {s n}, g.node? s = some n → n.data = [] ∧ n.style = []) ∧ g.start = none ∧ g.goal = none ∧ Weighed d g := by
  obtain ⟨g₁, hcells, hlays, -, hplaces⟩ := lays_cells (Wired.empty Fit (some ⟨width, height, d⟩)).placed width height
  have hwired := hlays.wired (Wired.empty Fit _)
  have hnew : ∀ {s n}, g₁.node? s = some n → n.x < width ∧ n.y < height ∧ n.data = [] ∧ n.style = [] := by
    intro s n hn
    rcases hlays.added hn with hold | hnew
    · exact absurd hold (by simp [node?])
    · exact hnew
  have hfilled : Filled Fit ⟨width, height, d⟩ g₁ := by
    refine ⟨hlays.grid, hwired, ?_, ?_⟩
    · intro s x y hs
      obtain ⟨n, hn, hplace⟩ := Option.map_eq_some_iff.mp hs
      obtain ⟨rfl, rfl⟩ := Prod.mk.inj hplace
      exact ⟨(hnew hn).1, (hnew hn).2.1⟩
    · intro x y hx hy
      obtain ⟨s, hs⟩ := hplaces hx hy
      exact ⟨s, hwired.slot?_cellId.mpr hs⟩
  obtain ⟨g, hedges, hsame, hlattice, hweighed, -⟩ := hfilled.completeAllEdges hfit
  refine ⟨g, ?_, hlattice, ?_, hsame.start.trans hlays.start, hsame.goal.trans hlays.goal, hweighed⟩
  · have hbuild : ((cells width height).forM insertCell >>= fun _ => completeAllEdges)
        { grid := some ⟨width, height, d⟩ } = .ok () g := (Edit.bind_ok hcells).trans hedges
    unfold ofGrid
    simp only [hbuild]
  · intro s n hn
    rw [hsame.node?] at hn
    exact (hnew hn).2.2

namespace Lattice

/-- A new cost of diagonals is set on all edges across corners, and nothing else changes. -/
theorem setDiagonal (h : Lattice Fit spec g) {d : Diagonal} (hfit : Completable Fit d) :
    ∃ g', Graph.setDiagonal d g = .ok () g' ∧ SameCells { g with grid := some { spec with diagonal := d } } g' ∧
      Lattice Fit { spec with diagonal := d } g' ∧ Weighed d g' ∧ ∀ {p a b}, JoinedAt g p a b → JoinedAt g' p a b := by
  have hfilled : Filled Fit { spec with diagonal := d } { g with grid := some { spec with diagonal := d } } :=
    ⟨rfl, h.wired.withGrid _, h.inside, h.filled⟩
  obtain ⟨g', hedges, hsame, hlattice, hweighed, hkept⟩ := hfilled.completeAllEdges hfit
  refine ⟨g', ?_, hsame, hlattice, hweighed, hkept⟩
  rw [← hedges]
  simp [Graph.setDiagonal, gridSpec, h.grid]

end Lattice

/-! ## New sizes -/

theorem Wired.dropNode (h : Wired Fit g) (slot : Nat) : Wired Fit (g.dropNode slot) := by
  by_cases hslot : g.Live slot
  · have hedges := edgeAt?_dropNode hslot
    refine ⟨h.arena.dropNode slot, (Mutation.dropNode g slot).indexed h.indexed, ?_, ?_, ?_⟩
    · intro s n hn
      rw [node?_dropNode] at hn
      split at hn
      · exact absurd hn (by simp)
      · exact h.named hn
    · intro p e he
      rw [hedges, Option.filter_eq_some_iff] at he
      obtain ⟨c, hcontact, hfits⟩ := h.fits he.1
      have htouches : e.source ≠ slot ∧ e.target ≠ slot := by simpa [Edge.touches] using he.2
      refine ⟨c, contact?_of_kept ?_ ?_ hcontact, hfits⟩
      · intro n hn
        rw [node?_dropNode, if_neg (Ne.symm htouches.1), hn]
      · intro n hn
        rw [node?_dropNode, if_neg (Ne.symm htouches.2), hn]
    · intro p p' e e' he he' hjoins
      rw [hedges, Option.filter_eq_some_iff] at he he'
      exact h.single he.1 he'.1 hjoins
  · have hnone : g.node? slot = none := by simpa [Live] using hslot
    have hsame : g.dropNode slot = g := by simp [Graph.dropNode, hnone]
    rw [hsame]
    exact h

theorem Wired.dropNodes (h : Wired Fit g) (slots : List Nat) : Wired Fit (slots.foldl Graph.dropNode g) := by
  induction slots generalizing g with
  | nil => exact h
  | cons slot rest ih => exact ih (h.dropNode slot)

/-- The slots of the cells outside of a size. -/
def slotsBeyond (g : Graph) (width height : Nat) : List Nat :=
  (g.nodeList.filter fun n => decide (width ≤ n.x) || decide (height ≤ n.y)).map Node.slot

/-- A cell is dropped by a new size if it lies outside. -/
theorem mem_slotsBeyond (hg : g.Arena) {width height s : Nat} :
    s ∈ g.slotsBeyond width height ↔ ∃ n, g.node? s = some n ∧ (width ≤ n.x ∨ height ≤ n.y) := by
  rw [slotsBeyond, List.mem_map]
  simp only [List.mem_filter, mem_nodeList, Bool.or_eq_true, decide_eq_true_eq]
  constructor
  · rintro ⟨n, ⟨⟨s', hn⟩, hfar⟩, rfl⟩
    rw [hg.slot hn]
    exact ⟨n, hn, hfar⟩
  · rintro ⟨n, hn, hfar⟩
    exact ⟨n, ⟨⟨s, hn⟩, hfar⟩, hg.slot hn⟩

/-- The phases of a new size. -/
theorem resize_eq (hgrid : g.grid = some spec) (width height : Nat) :
    Graph.resize width height g =
      if ((g.slotsBeyond width height).any fun slot => decide (some slot = g.start) || decide (some slot = g.goal)) = true
      then .error .resizeDropsEnd g
      else
        match (cells width height).forM insertCell g with
        | .error e g => .error e g
        | .ok _ g₁ => completeAllEdges
            { (g.slotsBeyond width height).foldl Graph.dropNode g₁ with grid := some { spec with width, height } } := by
  unfold Graph.resize
  simp only [gridSpec, hgrid]
  rfl

/-- Laying the cells of a new size and dropping those outside leaves just the cells of this size. -/
theorem tiled_resized (h : g.Placed) (spec : GridSpec) :
    ∃ g₁, (cells spec.width spec.height).forM insertCell g = .ok () g₁ ∧ Lays spec.width spec.height g g₁ ∧
      Tiled spec { (g.slotsBeyond spec.width spec.height).foldl Graph.dropNode g₁ with grid := some spec } := by
  obtain ⟨g₁, hcells, hlays, hplaced, hplaces⟩ := lays_cells h spec.width spec.height
  have houtside : ∀ s, s ∈ g.slotsBeyond spec.width spec.height ↔ _ := fun _ => mem_slotsBeyond h.arena
  generalize g.slotsBeyond spec.width spec.height = slots at houtside ⊢
  have hdropped := (hplaced.dropNodes slots).withGrid (some spec)
  have hnodes : ∀ s, ({ slots.foldl Graph.dropNode g₁ with grid := some spec } : Graph).node? s =
      if s ∈ slots then none else g₁.node? s := node?_dropNodes g₁ slots
  refine ⟨g₁, hcells, hlays, ⟨hdropped, rfl, ?_, ?_⟩⟩
  · intro s x y hs
    obtain ⟨n, hn, hplace⟩ := Option.map_eq_some_iff.mp hs
    obtain ⟨rfl, rfl⟩ := Prod.mk.inj hplace
    rw [hnodes] at hn
    split at hn
    · exact absurd hn (by simp)
    · rename_i hkept
      rcases hlays.added hn with hold | hnew
      · have hnear : ¬ (spec.width ≤ n.x ∨ spec.height ≤ n.y) := fun hfar => hkept ((houtside s).mpr ⟨n, hold, hfar⟩)
        omega
      · exact ⟨hnew.1, hnew.2.1⟩
  · intro x y hx hy
    obtain ⟨s, hs⟩ := hplaces hx hy
    obtain ⟨n, hn, hplace⟩ := Option.map_eq_some_iff.mp hs
    obtain ⟨rfl, rfl⟩ := Prod.mk.inj hplace
    have hkept : s ∉ slots := by
      intro hmem
      obtain ⟨m, hm, hfar⟩ := (houtside s).mp hmem
      obtain rfl : n = m := Option.some.inj (hn.symm.trans (hlays.kept hm))
      omega
    refine ⟨s, hdropped.slot?_cellId.mpr ?_⟩
    rw [placeOf?, hnodes, if_neg hkept, hn]
    rfl

/-- A new size that drops neither start nor goal makes a lattice of this size. -/
theorem Lattice.resize_of_kept (h : Lattice Fit spec g) (width height : Nat) (hfit : Completable Fit spec.diagonal)
    (hends : ¬ ((g.slotsBeyond width height).any fun slot =>
      decide (some slot = g.start) || decide (some slot = g.goal)) = true) :
    ∃ g', Graph.resize width height g = .ok () g' ∧ Lattice Fit { spec with width, height } g' ∧
      Weighed spec.diagonal g' := by
  rw [resize_eq h.grid, if_neg hends]
  obtain ⟨g₁, hcells, hlays, htiled⟩ := tiled_resized h.wired.placed { spec with width, height }
  have hwired := (hlays.wired h.wired).dropNodes (g.slotsBeyond width height)
  obtain ⟨g', hedges, _, hlattice, hweighed, -⟩ :=
    (htiled.toFilled (hwired.withGrid _)).completeAllEdges hfit
  rw [hcells]
  exact ⟨g', hedges, hlattice, hweighed⟩

/-- **A new size is refused, or makes a lattice of this size**, with the cost of diagonals set on it. -/
theorem Lattice.resize (h : Lattice Fit spec g) (width height : Nat) (hfit : Completable Fit spec.diagonal) :
    Graph.resize width height g = .error .resizeDropsEnd g ∨
      ∃ g', Graph.resize width height g = .ok () g' ∧ Lattice Fit { spec with width, height } g' ∧
        Weighed spec.diagonal g' := by
  by_cases hends : ((g.slotsBeyond width height).any fun slot =>
      decide (some slot = g.start) || decide (some slot = g.goal)) = true
  · left
    rw [resize_eq h.grid, if_pos hends]
  · exact .inr (h.resize_of_kept width height hfit hends)

/-! ## Everything else -/

/-- A graph whose cells stand where those of a lattice do, and whose edges join what the edges there join, is a lattice
too. -/
theorem Lattice.of_places (h : Lattice Fit spec g) {g' : Graph} {Fit' : Contact → Edge → Prop}
    (hwired : Wired Fit' g') (hgrid : g'.grid = g.grid) (hplaces : ∀ s, g'.placeOf? s = g.placeOf? s)
    (hjoins : ∀ {p e}, g.edgeAt? p = some e → ∃ e', g'.edgeAt? p = some e' ∧ ∀ a b, e.Joins a b → e'.Joins a b) :
    Lattice Fit' spec g' := by
  refine ⟨⟨hgrid.trans h.grid, hwired, ?_, ?_⟩, ?_⟩
  · intro s x y hs
    exact h.inside (by rwa [← hplaces])
  · intro x y hx hy
    obtain ⟨s, hs⟩ := h.filled hx hy
    exact ⟨s, hwired.slot?_cellId.mpr (by rw [hplaces, h.wired.slot?_cellId.mp hs])⟩
  · intro a b c hcontact
    rw [contact?_eq, hplaces, hplaces, ← contact?_eq] at hcontact
    obtain ⟨p, e, he, hjoin⟩ := h.joined hcontact
    obtain ⟨e', he', hsame⟩ := hjoins he
    exact ⟨p, e', he', hsame a b hjoin⟩

/-- More may be known of the edges of a lattice. -/
theorem Lattice.refit (h : Lattice Fit spec g) {Fit' : Contact → Edge → Prop}
    (hfit : ∀ {p e c}, g.edgeAt? p = some e → g.contact? e.source e.target = some c → Fit c e → Fit' c e) :
    Lattice Fit' spec g := by
  refine h.of_places ⟨h.wired.arena, h.wired.indexed, h.wired.named, ?_, h.wired.single⟩ rfl (fun _ => rfl)
    fun he => ⟨_, he, fun _ _ hjoins => hjoins⟩
  intro p e he
  obtain ⟨c, hcontact, hfits⟩ := h.wired.fits he
  exact ⟨c, hcontact, hfit he hcontact hfits⟩

theorem placeOf?_modifyNode (slot : Nat) {f : Node → Node} (hf : SameNode f) (s : Nat) :
    (g.modifyNode slot f).placeOf? s = g.placeOf? s :=
  (SamePlan.modifyNode g slot hf).places s

/-- A node may be changed in all but its address and its place. -/
theorem Lattice.modifyNode (h : Lattice Fit spec g) (slot : Nat) {f : Node → Node} (hf : SameNode f) :
    Lattice Fit spec (g.modifyNode slot f) := by
  have hmutation := Mutation.changeNode g slot hf
  have hplaces := placeOf?_modifyNode (g := g) slot hf
  refine h.of_places ⟨hmutation.arena h.wired.arena, hmutation.indexed h.wired.indexed, ?_, ?_, h.wired.single⟩ rfl
    hplaces fun he => ⟨_, he, fun _ _ hjoins => hjoins⟩
  · intro s n hn
    rw [node?_modifyNode] at hn
    split at hn
    · obtain ⟨m, hm, rfl⟩ := Option.map_eq_some_iff.mp hn
      obtain ⟨_, hid, hx, hy⟩ := hf m
      rw [hid, hx, hy]
      exact h.wired.named hm
    · exact h.wired.named hn
  · intro p e he
    obtain ⟨c, hcontact, hfits⟩ := h.wired.fits (p := p) he
    exact ⟨c, by rwa [contact?_eq, hplaces, hplaces, ← contact?_eq], hfits⟩

/-- An edge may be changed in all but its ends, as long as it fits. -/
theorem Lattice.updateEdge (h : Lattice Fit spec g) (id : EdgeId) {f : Edge → Edge} (hf : SameEdge f)
    (hfit : ∀ {p e c}, place? id = some p → g.edgeAt? p = some e → g.contact? e.source e.target = some c → Fit c e →
      Fit c (f e)) : Lattice Fit spec (g.updateEdge id fun e => some (f e)) := by
  refine h.of_places (h.wired.updateEdge id hf hfit) (grid_updateEdge g id _) ?_ ?_
  · exact (SameCells.updateEdge g id _).placeOf?
  · intro p e he
    rw [edgeAt?_updateEdge, he]
    split
    · obtain ⟨_, hsource, htarget⟩ := hf e
      refine ⟨f e, rfl, fun a b hjoins => ?_⟩
      rwa [Edge.Joins, hsource, htarget]
    · exact ⟨e, rfl, fun _ _ hjoins => hjoins⟩

/-- An edge with its ends swapped. -/
def turned (e : Edge) : Edge := { e with source := e.target, target := e.source }

theorem joins_turned {e : Edge} {a b : Nat} : (turned e).Joins a b ↔ e.Joins a b := by
  unfold Edge.Joins turned
  dsimp only
  constructor
  · rintro (⟨htarget, hsource⟩ | ⟨htarget, hsource⟩)
    · exact .inr ⟨hsource, htarget⟩
    · exact .inl ⟨hsource, htarget⟩
  · rintro (⟨hsource, htarget⟩ | ⟨hsource, htarget⟩)
    · exact .inr ⟨htarget, hsource⟩
    · exact .inl ⟨htarget, hsource⟩

/-- Turning an edge around that is there. -/
theorem reorientEdge_eq {id : EdgeId} {e : Edge} (he : g.edge? id = some e) :
    Graph.reorientEdge id g = .ok () (g.updateEdge id fun e => some (turned e)).restructured := by
  simp [Graph.reorientEdge, he, turned]

/-- Turning an edge around changes nothing where there is none. -/
theorem after_reorientEdge (g : Graph) (id : EdgeId) :
    (Graph.reorientEdge id).after g = g ∨
      (Graph.reorientEdge id).after g = (g.updateEdge id fun e => some (turned e)).restructured := by
  cases hedge : g.edge? id with
  | none => exact .inl (by simp [Edit.after, Graph.reorientEdge, hedge])
  | some e => exact .inr (Edit.after_ok (reorientEdge_eq hedge))

/-- An edge may be turned around. -/
theorem Lattice.turnEdge (h : Lattice Fit spec g) (id : EdgeId) (hfit : ∀ {e c}, Fit c e → Fit c (turned e)) :
    Lattice Fit spec (g.updateEdge id fun e => some (turned e)).restructured := by
  have hmutation := Mutation.reorientEdge g id
  have hcells : SameCells g (g.updateEdge id fun e => some (turned e)).restructured :=
    (SameCells.updateEdge g id _).trans ⟨rfl, rfl, rfl, rfl, rfl⟩
  have hnew : ∀ p, (g.updateEdge id fun e => some (turned e)).restructured.edgeAt? p =
      if place? id = some p then (g.edgeAt? p).map turned else g.edgeAt? p :=
    edgeAt?_changeEdge g id turned
  have hold : ∀ {p e'}, (g.updateEdge id fun e => some (turned e)).restructured.edgeAt? p = some e' →
      ∃ e, g.edgeAt? p = some e ∧ (e' = e ∨ e' = turned e) := by
    intro p e' he'
    rw [hnew] at he'
    split at he'
    · obtain ⟨e, he, rfl⟩ := Option.map_eq_some_iff.mp he'
      exact ⟨e, he, .inr rfl⟩
    · exact ⟨e', he', .inl rfl⟩
  have hsame : ∀ {e e' : Edge} {a b : Nat}, e' = e ∨ e' = turned e → (e'.Joins a b ↔ e.Joins a b) := by
    rintro e e' a b (rfl | rfl)
    · rfl
    · exact joins_turned
  have hwired : Wired Fit (g.updateEdge id fun e => some (turned e)).restructured := by
    refine h.wired.of_same_cells hcells (hmutation.arena h.wired.arena) (hmutation.indexed h.wired.indexed) ?_ ?_
    · intro p e' he'
      obtain ⟨e, he, hturned⟩ := hold he'
      obtain ⟨c, hcontact, hfits⟩ := h.wired.fits he
      refine ⟨c, ?_, ?_⟩
      · rw [← hcontact, g.contact?_of_joins ((hsame hturned).mp e'.joins_self)]
      · rcases hturned with rfl | rfl
        · exact hfits
        · exact hfit hfits
    · intro p p' e₁ e₂ he₁ he₂ hjoins
      obtain ⟨old₁, hold₁, hturned₁⟩ := hold he₁
      obtain ⟨old₂, hold₂, hturned₂⟩ := hold he₂
      exact h.wired.place_eq_of_joins hold₁ hold₂ ((hsame hturned₁).mp e₁.joins_self) ((hsame hturned₂).mp hjoins)
  refine h.of_places hwired hcells.grid hcells.placeOf? ?_
  intro p e he
  rw [hnew, he]
  split
  · exact ⟨turned e, rfl, fun a b hjoins => joins_turned.mpr hjoins⟩
  · exact ⟨e, rfl, fun _ _ hjoins => hjoins⟩

/-- Start, goal, index and all else that is no cell and no edge may change. -/
theorem Lattice.of_same_edges (h : Lattice Fit spec g) {g' : Graph} (hmutation : Mutation g g')
    (hgrid : g'.grid = g.grid) (hnodes : g'.nodes = g.nodes) (hedges : g'.edges = g.edges) : Lattice Fit spec g' := by
  have hnode : ∀ s, g'.node? s = g.node? s := fun s => by rw [node?, node?, hnodes]
  have hplaces : ∀ s, g'.placeOf? s = g.placeOf? s := fun s => by rw [placeOf?, placeOf?, hnode]
  have hedge : ∀ p, g'.edgeAt? p = g.edgeAt? p := fun p => by rw [edgeAt?, edgeAt?, hedges]
  refine h.of_places ⟨hmutation.arena h.wired.arena, hmutation.indexed h.wired.indexed, ?_, ?_, ?_⟩ hgrid hplaces
    fun he => ⟨_, by rwa [hedge], fun _ _ hjoins => hjoins⟩
  · intro s n hn
    exact h.wired.named (by rwa [← hnode])
  · intro p e he
    rw [contact?_eq, hplaces, hplaces, ← contact?_eq]
    exact h.wired.fits (by rwa [← hedge])
  · intro p p' e e' he he'
    exact h.wired.single (by rwa [← hedge]) (by rwa [← hedge])

theorem Lattice.reorientEdge (h : Lattice Fit spec g) (id : EdgeId) (hfit : ∀ {e c}, Fit c e → Fit c (turned e)) :
    Lattice Fit spec ((Graph.reorientEdge id).after g) := by
  rcases after_reorientEdge g id with hafter | hafter
  · rwa [hafter]
  · rw [hafter]
    exact h.turnEdge id hfit

theorem Lattice.setStart (h : Lattice Fit spec g) (slot : Option Nat) : Lattice Fit spec ((Graph.setStart slot).after g) := by
  rcases after_setStart g slot with hafter | ⟨hlive, hafter⟩
  · rwa [hafter]
  · rw [hafter]
    exact h.of_same_edges (.setStart g slot hlive) rfl rfl rfl

theorem Lattice.setGoal (h : Lattice Fit spec g) (slot : Option Nat) : Lattice Fit spec ((Graph.setGoal slot).after g) := by
  rcases after_setGoal g slot with hafter | ⟨hlive, hafter⟩
  · rwa [hafter]
  · rw [hafter]
    exact h.of_same_edges (.setGoal g slot hlive) rfl rfl rfl

/-- An edge may be changed in its flag and its bags, as long as it fits. -/
theorem Lattice.modifyEdge (h : Lattice Fit spec g) (id : EdgeId) {f : Edge → Edge} (hf : SameEdge f)
    (hfit : ∀ {c e}, Fit c e → Fit c (f e)) : Lattice Fit spec (g.modifyEdge id f) := by
  have hchanged := h.updateEdge id hf fun _ _ _ hfits => hfit hfits
  exact hchanged.of_same_edges (Mutation.settings _ true _ _ _) rfl rfl rfl

/-! ## Adjustments -/

/-- What may be done with a grid without taking anything away from its edges. -/
inductive Adjustment where
  | resize (width height : Nat)
  | setDiagonal (diagonal : Diagonal)
  /-- Replaces the bags of a node. -/
  | setNode (slot : Nat) (data style : Bag)
  | setEdgeData (id : EdgeId) (key : String) (value : Json)
  | setEdgeStyle (id : EdgeId) (key : String) (value : Json)
  | setEdgeFlag (id : EdgeId) (bidirectional : Bool)
  | reorientEdge (id : EdgeId)
  | setStart (slot : Option Nat)
  | setGoal (slot : Option Nat)
  /-- Brings the index up to date, as every look-up of edges does. -/
  | reindex

namespace Adjustment

/-- The edit that an adjustment is. -/
def edit : Adjustment → Edit Graph Unit
  | resize width height => Graph.resize width height
  | setDiagonal diagonal => Graph.setDiagonal diagonal
  | setNode slot data style => modify fun g => g.modifyNode slot fun n => { n with data, style }
  | setEdgeData id key value => modify fun g => g.modifyEdge id fun e => { e with data := e.data.set key value }
  | setEdgeStyle id key value => modify fun g => g.modifyEdge id fun e => { e with style := e.style.set key value }
  | setEdgeFlag id bidirectional => modify fun g => g.modifyEdge id fun e => { e with bidirectional }
  | reorientEdge id => Graph.reorientEdge id
  | setStart slot => Graph.setStart slot
  | setGoal slot => Graph.setGoal slot
  | reindex => modify Graph.reindex

/-- What an adjustment leaves behind; one that is refused leaves the graph as it is. -/
def run (op : Adjustment) (g : Graph) : Graph := op.edit.after g

end Adjustment

/-- What a sequence of adjustments leaves behind. -/
def adjustAll (ops : List Adjustment) (g : Graph) : Graph := ops.foldl (fun g op => op.run g) g

/-- A size of a grid: not zero, and a count. -/
def IsSize (n : Nat) : Prop := 1 ≤ n ∧ n ≤ Decimal.maxCount

/-- The sizes of a grid are sizes. -/
structure Sized (spec : GridSpec) : Prop where
  width : IsSize spec.width
  height : IsSize spec.height

/-- The sizes of a grid are sizes, and diagonals cost a finite number. -/
structure Sound (spec : GridSpec) : Prop where
  width : IsSize spec.width
  height : IsSize spec.height
  diagonal : spec.diagonal.Finite

theorem Sound.sized {spec : GridSpec} (h : Sound spec) : Sized spec := ⟨h.width, h.height⟩

/-- New sizes are sizes, and a new cost of diagonals is finite. -/
def Adjustment.Allowed : Adjustment → Prop
  | resize width height => IsSize width ∧ IsSize height
  | setDiagonal diagonal => diagonal.Finite
  | _ => True

/-- What an edge of a grid is like as long as nothing is taken away from it: no key is there twice, and where it leads
across a corner the cost of diagonals was set. -/
structure Regular (c : Contact) (e : Edge) : Prop where
  data : e.data.keys.Nodup
  style : e.style.keys.Nodup
  weight : c = .diagonal → (e.data.get? "w").isSome = true
  forbidden : c = .diagonal → (e.data.get? "forbidden").isSome = true

theorem completable_regular (d : Diagonal) : Completable Regular d where
  straight _ _ _ := ⟨List.nodup_nil, List.nodup_nil, by simp, by simp⟩
  across _ _ _ :=
    ⟨Bag.nodup_keys_set _ _ (Bag.nodup_keys_set _ _ List.nodup_nil), List.nodup_nil, fun _ => rfl, fun _ => rfl⟩
  reweighed e h :=
    ⟨Bag.nodup_keys_set _ _ (Bag.nodup_keys_set _ _ h.data), h.style,
      fun hc => Bag.isSome_get?_set _ _ (Bag.isSome_get?_set _ _ (h.weight hc)),
      fun hc => Bag.isSome_get?_set _ _ (Bag.isSome_get?_set _ _ (h.forbidden hc))⟩

/-- **An adjustment leaves a lattice behind.** -/
theorem Adjustment.lattice {op : Adjustment} (hop : op.Allowed) (h : Lattice Regular spec g) (hspec : Sound spec) :
    ∃ spec', Lattice Regular spec' (op.run g) ∧ Sound spec' := by
  cases op with
  | resize width height =>
      rcases h.resize width height (completable_regular spec.diagonal) with hrefused | ⟨g', hsized, hlattice, _⟩
      · have hrun : (resize width height).run g = g := Edit.after_error hrefused
        rw [hrun]
        exact ⟨spec, h, hspec⟩
      · have hrun : (resize width height).run g = g' := Edit.after_ok hsized
        rw [hrun]
        exact ⟨_, hlattice, hop.1, hop.2, hspec.diagonal⟩
  | setDiagonal d =>
      obtain ⟨g', hset, _, hlattice, _⟩ := h.setDiagonal (completable_regular d)
      have hrun : (setDiagonal d).run g = g' := Edit.after_ok hset
      rw [hrun]
      exact ⟨_, hlattice, hspec.width, hspec.height, hop⟩
  | setNode slot data style => exact ⟨spec, h.modifyNode slot fun _ => ⟨rfl, rfl, rfl, rfl⟩, hspec⟩
  | setEdgeData id key value =>
      refine ⟨spec, h.modifyEdge id (fun _ => ⟨rfl, rfl, rfl⟩) fun hregular => ?_, hspec⟩
      exact
        { data := Bag.nodup_keys_set key value hregular.data
          style := hregular.style
          weight := fun hc => Bag.isSome_get?_set key value (hregular.weight hc)
          forbidden := fun hc => Bag.isSome_get?_set key value (hregular.forbidden hc) }
  | setEdgeStyle id key value =>
      refine ⟨spec, h.modifyEdge id (fun _ => ⟨rfl, rfl, rfl⟩) fun hregular => ?_, hspec⟩
      exact { hregular with style := Bag.nodup_keys_set key value hregular.style }
  | setEdgeFlag id bidirectional =>
      refine ⟨spec, h.modifyEdge id (fun _ => ⟨rfl, rfl, rfl⟩) fun hregular => ?_, hspec⟩
      exact { hregular with }
  | reorientEdge id => exact ⟨spec, h.reorientEdge id fun hregular => { hregular with }, hspec⟩
  | setStart slot => exact ⟨spec, h.setStart slot, hspec⟩
  | setGoal slot => exact ⟨spec, h.setGoal slot, hspec⟩
  | reindex => exact ⟨spec, h.of_same_edges (.reindex g) rfl rfl rfl, hspec⟩

/-- **Whatever adjustments are made of a grid, it stays a lattice.** -/
theorem lattice_adjustAll {ops : List Adjustment} (hops : ∀ op ∈ ops, op.Allowed) (h : Lattice Regular spec g)
    (hspec : Sound spec) : ∃ spec', Lattice Regular spec' (adjustAll ops g) ∧ Sound spec' := by
  induction ops generalizing spec g with
  | nil => exact ⟨spec, h, hspec⟩
  | cons op rest ih =>
      obtain ⟨spec', hlattice, hsound⟩ := Adjustment.lattice (hops op List.mem_cons_self) h hspec
      exact ih (fun op' hop' => hops op' (List.mem_cons_of_mem op hop')) hlattice hsound

end SearchLab.Graph
