import SearchLab.Proofs.Graph.Tiling

/-!
# Cells with nothing to complete

Completing the edges around a cell looks, towards each cell beside it, at the first edge between the two. It lays one
where there is none, and across corners it sets the cost of diagonals in the data of this first edge. Where it has
nothing to do, the cell is `Settled`.

* `Mends` — what becomes of a graph in which the edges around a slot are completed;
* `completeEdges_settles` — a cell is settled afterwards, and changes no edge exactly if it was settled before;
* `settled_of_lattice` — on a grid whose edges have not been edited all cells are settled;
* `exists_unsettled` — where edges have been edited, a cell may have all of them and still not be settled.
-/

namespace SearchLab

instance (e : Edge) (a b : Nat) : Decidable (e.Joins a b) :=
  inferInstanceAs (Decidable ((e.source = a ∧ e.target = b) ∨ (e.source = b ∧ e.target = a)))

namespace Graph

variable {spec : GridSpec} {g g' g'' : Graph} {d : Diagonal} {slot target a b : Nat} {cell : Neighbour}

/-! ## The first edge between two nodes -/

/-- The first of the edges that join two nodes. -/
def joining? (g : Graph) (a b : Nat) : Option Edge := g.edgeList.find? fun e => e.Joins a b

/-- An edge is seen from one node to another if it joins them. -/
theorem map_head?_viewsFrom (e : Edge) (a b : Nat) :
    ((viewsFrom a e).filter (·.target == b)).head?.map EdgeView.edge = if e.Joins a b then some e else none := by
  by_cases hsource : e.source = a <;> by_cases htarget : e.target = a <;> by_cases hsource' : e.source = b <;>
    by_cases htarget' : e.target = b <;> simp_all [viewsFrom, EdgeView.target, Edge.Joins]

/-- What is seen first from one node to another is the first edge that joins them. -/
theorem map_head?_between (hg : g.Arena) (h : g.Indexed) (a b : Nat) :
    (g.between a b true).head?.map EdgeView.edge = g.joining? a b := by
  rw [between, leaving_true hg h, joining?]
  induction g.edgeList with
  | nil => rfl
  | cons e rest ih =>
      rw [List.flatMap_cons, List.filter_append, List.head?_append, Option.map_or, ih, map_head?_viewsFrom,
        List.find?_cons]
      by_cases hjoins : e.Joins a b <;> simp [hjoins]

/-- Changing an edge other than in its ends leaves it the first one between them. -/
theorem joining?_changeEdge (hg : g.Arena) (id : EdgeId) {f : Edge → Edge} (hf : SameEdge f) (a b : Nat) :
    (g.updateEdge id fun e => some (f e)).joining? a b =
      (g.joining? a b).map fun e => if place? e.id = place? id then f e else e := by
  rw [joining?, hg.edgeList_changeEdge, List.find?_map, joining?]
  congr 2
  funext e
  obtain ⟨-, hsource, htarget⟩ := hf e
  rw [Function.comp_apply]
  split
  · exact decide_eq_decide.mpr (by rw [Edge.Joins, hsource, htarget, Edge.Joins])
  · rfl

theorem edgeList_linkCells (g : Graph) (source target : Nat) :
    (g.linkCells source target).2.edgeList = g.edgeList ++ [bare g.nextEdgeId source target] := by
  simp [linkCells, edgeList, bare]

/-! ## Mended edges -/

/-- What completing the edges around a slot makes of an edge: it stays, or it is one at this slot and the cost of
diagonals is set in its data. -/
def Mended (d : Diagonal) (slot : Nat) (e e' : Edge) : Prop := e' = e ∨ e.touches slot = true ∧ e' = reweighed d e

namespace Mended

variable {e e' e'' : Edge}

theorem trans (h : Mended d slot e e') (h' : Mended d slot e' e'') : Mended d slot e e'' := by
  rcases h with rfl | ⟨htouches, rfl⟩
  · exact h'
  · rcases h' with rfl | ⟨-, rfl⟩
    · exact .inr ⟨htouches, rfl⟩
    · exact .inr ⟨htouches, by simp [reweighed, weighed_weighed]⟩

theorem joins (h : Mended d slot e e') (a b : Nat) : e'.Joins a b ↔ e.Joins a b := by
  rcases h with rfl | ⟨-, rfl⟩ <;> rfl

end Mended

section Lists

variable {edges edges' edges'' : List Edge}

theorem mended_refl (edges : List Edge) : List.Forall₂ (Mended d slot) edges edges :=
  List.forall₂_same.mpr fun _ _ => .inl rfl

theorem mended_trans (h : List.Forall₂ (Mended d slot) edges edges')
    (h' : List.Forall₂ (Mended d slot) edges' edges'') : List.Forall₂ (Mended d slot) edges edges'' := by
  induction h generalizing edges'' with
  | nil => exact h'
  | cons hfirst _ ih =>
      obtain ⟨e, rest, hfirst', hrest, rfl⟩ := List.forall₂_cons_left_iff.mp h'
      exact .cons (hfirst.trans hfirst') (ih hrest)

/-- Mending leaves the first edge between two nodes the first one. -/
theorem find?_mended (h : List.Forall₂ (Mended d slot) edges edges') {e : Edge}
    (he : edges.find? (fun e => e.Joins a b) = some e) :
    ∃ e', edges'.find? (fun e => e.Joins a b) = some e' ∧ Mended d slot e e' := by
  induction h with
  | nil => cases he
  | @cons first first' _ _ hfirst _ ih =>
      rw [List.find?_cons] at he ⊢
      simp only [hfirst.joins a b]
      by_cases hjoins : first.Joins a b
      · simp only [hjoins, decide_true] at he ⊢
        obtain rfl := Option.some.inj he
        exact ⟨first', rfl, hfirst⟩
      · simp only [hjoins, decide_false] at he ⊢
        exact ih he

end Lists

/-! ## Mended graphs -/

/-- One graph comes of another by completing the edges around a slot. Nothing else is changed; the edges that were there
are mended, in their order, and behind them there are bare ones, from this slot and mended as well. -/
structure Mends (d : Diagonal) (slot : Nat) (g g' : Graph) : Prop extends SameCells g g' where
  outcome : g'.outcome = g.outcome
  defaultBidirectional : g'.defaultBidirectional = g.defaultBidirectional
  physicsEnabled : g'.physicsEnabled = g.physicsEnabled
  sound : g.Arena ∧ g.Indexed → g'.Arena ∧ g'.Indexed
  edges : ∃ new, (∀ e ∈ new, ∃ id target, e = bare id slot target) ∧
    List.Forall₂ (Mended d slot) (g.edgeList ++ new) g'.edgeList

namespace Mends

theorem refl (g : Graph) : Mends d slot g g where
  toSameCells := .refl g
  outcome := rfl
  defaultBidirectional := rfl
  physicsEnabled := rfl
  sound h := h
  edges := ⟨[], by simp, by rw [List.append_nil]; exact mended_refl g.edgeList⟩

theorem trans (h : Mends d slot g g') (h' : Mends d slot g' g'') : Mends d slot g g'' where
  toSameCells := h.toSameCells.trans h'.toSameCells
  outcome := h'.outcome.trans h.outcome
  defaultBidirectional := h'.defaultBidirectional.trans h.defaultBidirectional
  physicsEnabled := h'.physicsEnabled.trans h.physicsEnabled
  sound := h'.sound ∘ h.sound
  edges := by
    obtain ⟨new, hnew, hedges⟩ := h.edges
    obtain ⟨new', hnew', hedges'⟩ := h'.edges
    refine ⟨new ++ new', fun e he => (List.mem_append.mp he).elim (hnew e) (hnew' e), mended_trans ?_ hedges'⟩
    rw [← List.append_assoc]
    exact List.rel_append hedges (mended_refl new')

theorem reindex (g : Graph) : Mends d slot g g.reindex where
  toSameCells := ⟨rfl, rfl, rfl, rfl, rfl⟩
  outcome := rfl
  defaultBidirectional := rfl
  physicsEnabled := rfl
  sound h := ⟨(Mutation.reindex g).arena h.1, (Mutation.reindex g).indexed h.2⟩
  edges := ⟨[], by simp, by rw [List.append_nil]; exact mended_refl g.edgeList⟩

/-- The cost of diagonals may be set in the data of an edge at the slot. -/
theorem weighDiagonal (hg : g.Arena) {e : Edge} (he : e ∈ g.edgeList) (htouches : e.touches slot = true) :
    Mends d slot g (g.weighDiagonal e.id d) where
  toSameCells := .updateEdge g e.id _
  outcome := by simp [Graph.weighDiagonal, updateEdge]; split <;> rfl
  defaultBidirectional := by simp [Graph.weighDiagonal, updateEdge]; split <;> rfl
  physicsEnabled := by simp [Graph.weighDiagonal, updateEdge]; split <;> rfl
  sound h := by
    have hmutation := Mutation.changeEdge g e.id (f := reweighed d) fun _ => ⟨rfl, rfl, rfl⟩
    exact ⟨hmutation.arena h.1, hmutation.indexed h.2⟩
  edges := by
    have hedges : (g.weighDiagonal e.id d).edgeList = _ := hg.edgeList_changeEdge e.id (reweighed d)
    refine ⟨[], by simp, ?_⟩
    rw [List.append_nil, hedges, List.forall₂_map_right_iff]
    refine List.forall₂_same.mpr fun e' he' => ?_
    split
    · rename_i hplace
      obtain rfl := hg.eq_of_place? he' he hplace
      exact .inr ⟨htouches, rfl⟩
    · exact .inl rfl

/-- The slot may be linked to another one. -/
theorem linkCells (hsource : g.Live slot) (htarget : g.Live target) :
    Mends d slot g (g.linkCells slot target).2 where
  toSameCells := ⟨rfl, rfl, rfl, rfl, rfl⟩
  outcome := rfl
  defaultBidirectional := rfl
  physicsEnabled := rfl
  sound h := by
    have hmutation := Mutation.linkCells g hsource htarget
    exact ⟨hmutation.arena h.1, hmutation.indexed h.2⟩
  edges := by
    refine ⟨[bare g.nextEdgeId slot target], ?_, ?_⟩
    · intro e he
      exact ⟨_, _, List.mem_singleton.mp he⟩
    · rw [edgeList_linkCells]
      exact mended_refl _

/-- The first edge between two nodes stays the first one. -/
theorem joining? (h : Mends d slot g g') {e : Edge} (he : g.joining? a b = some e) :
    ∃ e', g'.joining? a b = some e' ∧ Mended d slot e e' := by
  obtain ⟨new, -, hedges⟩ := h.edges
  refine find?_mended hedges ?_
  rw [List.find?_append]
  exact Option.or_eq_some_iff.mpr (.inl he)

end Mends

/-! ## Settled cells -/

/-- Towards a cell a slot has nothing to complete: an edge joins the two, and across a corner the cost of diagonals is
set in the first one that does. -/
def SettledAt (g : Graph) (d : Diagonal) (slot : Nat) (cell : Neighbour) : Prop :=
  ∃ target e, g.slot? (cellId cell.x cell.y) = some target ∧ g.joining? slot target = some e ∧
    (cell.isDiagonal = true → weighed d e.data = e.data)

/-- Towards a cell a slot is linked: an edge joins the two. -/
def LinkedAt (g : Graph) (slot : Nat) (cell : Neighbour) : Prop :=
  ∃ target e, g.slot? (cellId cell.x cell.y) = some target ∧ g.joining? slot target = some e

/-- On a grid, the node in a slot is linked to all of the cells around it. -/
def Linked (g : Graph) (slot : Nat) : Prop :=
  ∀ spec n, g.grid = some spec → g.node? slot = some n →
    ∀ cell ∈ neighbours spec.width spec.height n.x n.y, g.LinkedAt slot cell

theorem linked_iff {n : Node} (hgrid : g.grid = some spec) (hn : g.node? slot = some n) :
    g.Linked slot ↔ ∀ cell ∈ neighbours spec.width spec.height n.x n.y, g.LinkedAt slot cell := by
  refine ⟨fun h => h spec n hgrid hn, fun h spec' n' hgrid' hn' => ?_⟩
  obtain rfl := Option.some.inj (hgrid.symm.trans hgrid')
  obtain rfl := Option.some.inj (hn.symm.trans hn')
  exact h

theorem LinkedAt.mends (h : g.LinkedAt slot cell) (hmends : Mends d slot g g') : g'.LinkedAt slot cell := by
  obtain ⟨target, e, hcell, hjoining⟩ := h
  obtain ⟨e', hjoining', -⟩ := hmends.joining? hjoining
  exact ⟨target, e', (hmends.slot? _).trans hcell, hjoining'⟩

/-- On a grid, the node in a slot has nothing to complete towards any of the cells around it. -/
def Settled (g : Graph) (slot : Nat) : Prop :=
  ∀ spec n, g.grid = some spec → g.node? slot = some n →
    ∀ cell ∈ neighbours spec.width spec.height n.x n.y, g.SettledAt spec.diagonal slot cell

theorem SettledAt.linkedAt (h : g.SettledAt d slot cell) : g.LinkedAt slot cell := by
  obtain ⟨target, e, hcell, hjoining, -⟩ := h
  exact ⟨target, e, hcell, hjoining⟩

/-- What was completed stays so while other edges are. -/
theorem SettledAt.mends (h : g.SettledAt d slot cell) (hmends : Mends d slot g g') : g'.SettledAt d slot cell := by
  obtain ⟨target, e, hcell, hjoining, hweighed⟩ := h
  obtain ⟨e', hjoining', hmended⟩ := hmends.joining? hjoining
  refine ⟨target, e', (hmends.slot? _).trans hcell, hjoining', fun hdiagonal => ?_⟩
  rcases hmended with rfl | ⟨-, rfl⟩
  · exact hweighed hdiagonal
  · exact weighed_weighed d d e.data

theorem Settled.of_plan (h : g.Settled slot) (hplan : SamePlan g g') (hedges : g'.edgeList = g.edgeList) :
    g'.Settled slot := by
  intro spec n' hgrid hn' cell hcell
  have hplace := hplan.places slot
  rw [hn', Option.map_some] at hplace
  obtain ⟨n, hn, hat⟩ := Option.map_eq_some_iff.mp hplace.symm
  obtain ⟨hx, hy⟩ := Prod.mk.inj hat
  rw [← hx, ← hy] at hcell
  obtain ⟨target, e, htarget, hjoining, hweighed⟩ := h spec n (hplan.grid.symm.trans hgrid) hn cell hcell
  refine ⟨target, e, ?_, ?_, hweighed⟩
  · rw [Graph.slot?, hplan.slots]
    exact htarget
  · rw [Graph.joining?, hedges]
    exact hjoining

/-- What there is to complete is a matter of the places and the edges. -/
theorem settled_iff_of_plan (hplan : SamePlan g g') (hedges : g'.edgeList = g.edgeList) :
    g'.Settled slot ↔ g.Settled slot :=
  ⟨fun h => h.of_plan hplan.symm hedges.symm, fun h => h.of_plan hplan hedges⟩

theorem SameCells.plan (h : SameCells g g') : SamePlan g g' :=
  .of_nodes h.grid h.slots h.nodes

/-- A free-form graph has nothing to complete. -/
theorem settled_of_freeForm (h : g.grid = none) (slot : Nat) : g.Settled slot := by
  intro spec n hgrid
  cases h.symm.trans hgrid

/-- On a wired grid, an edge that joins two cells is the first one between them. -/
theorem Wired.joining?_of_joins {Fit : Contact → Edge → Prop} (h : Wired Fit g) {p : Nat} {e : Edge}
    (he : g.edgeAt? p = some e) (hjoins : e.Joins a b) : g.joining? a b = some e := by
  rw [← map_head?_between h.arena h.indexed, h.between_of_joins he hjoins]
  rfl

/-- Where all cells that touch are joined and the cost of diagonals is set across all corners, nothing is left to
complete. -/
theorem settled_of_lattice {Fit : Contact → Edge → Prop} (h : Lattice Fit spec g) (hweighed : Weighed spec.diagonal g)
    (slot : Nat) : g.Settled slot := by
  intro spec' n hgrid hn cell hcell
  obtain rfl := Option.some.inj (h.grid.symm.trans hgrid)
  obtain ⟨⟨c, htouch, hdiagonal⟩, hx, hy⟩ := mem_neighbours.mp hcell
  obtain ⟨target, htarget⟩ := h.filled hx hy
  have hcontact : g.contact? slot target = some c := by
    rw [contact?_of_places (placeOf?_of_node? hn) (h.wired.slot?_cellId.mp htarget), htouch]
  obtain ⟨p, e, he, hjoins⟩ := h.joined hcontact
  refine ⟨target, e, htarget, h.wired.joining?_of_joins he hjoins, fun hacross => hweighed he ?_⟩
  rw [g.contact?_of_joins hjoins, hcontact]
  simpa [hacross] using hdiagonal

/-! ## Completing edges -/

theorem weighDiagonal_viewId (g : Graph) (v : EdgeView) (d : Diagonal) :
    g.weighDiagonal v.id d = g.weighDiagonal v.edge.id d := by
  obtain ⟨e, reversed⟩ := v
  cases reversed
  · rfl
  · simp only [weighDiagonal, updateEdge, EdgeView.id, place?_reversed, if_true]

/-- Completing the edge towards a cell first sees to it that there is one. -/
theorem completeEdge_eq (hg : g.Arena) (hi : g.Indexed) (hlive : g.Live slot)
    (hcell : g.slot? (cellId cell.x cell.y) = some target) :
    ∃ g₁ e, completeEdge slot d cell g = .ok () (if cell.isDiagonal then g₁.weighDiagonal e.id d else g₁) ∧
      Mends d slot g g₁ ∧ g₁.joining? slot target = some e ∧ ((g.joining? slot target).isSome → g₁ = g) ∧
      (g.joining? slot target = none → g₁.needsRedraw = true) := by
  have hslot : g.cellSlot cell.x cell.y = .ok target := by rw [cellSlot, hcell]
  have hfirst := map_head?_between hg hi slot target
  cases hjoining : g.joining? slot target with
  | some e =>
      rw [hjoining] at hfirst
      obtain ⟨v, hv, rfl⟩ := Option.map_eq_some_iff.mp hfirst
      refine ⟨g, v.edge, ?_, .refl g, hjoining, fun _ => rfl, by simp⟩
      simp [completeEdge, hslot, hv, weighDiagonal_viewId]
  | none =>
      rw [hjoining, Option.map_eq_none_iff] at hfirst
      refine ⟨(g.linkCells slot target).2, bare g.nextEdgeId slot target, ?_,
        .linkCells hlive (hg.live_of_slot? hcell), ?_, by simp, fun _ => rfl⟩
      · simp [completeEdge, hslot, hfirst]
        rfl
      · rw [joining?] at hjoining
        rw [joining?, edgeList_linkCells, List.find?_append, hjoining]
        simp [bare, Edge.Joins]

/-- Weighing an edge that has its cost changes nothing. -/
theorem edgeList_weighDiagonal (hg : g.Arena) {e : Edge} (he : e ∈ g.edgeList) (hweighed : weighed d e.data = e.data) :
    (g.weighDiagonal e.id d).edgeList = g.edgeList := by
  have hedges : (g.weighDiagonal e.id d).edgeList = _ := hg.edgeList_changeEdge e.id (reweighed d)
  rw [hedges]
  refine (List.map_congr_left fun e' he' => ?_).trans (List.map_id _)
  split
  · rename_i hplace
    obtain rfl := hg.eq_of_place? he' he hplace
    rw [reweighed, hweighed, id]
  · rfl

/-- Completing the edge towards a cell settles this, and changes no edge where it was settled. -/
theorem completeEdge_settles (hg : g.Arena) (hi : g.Indexed) (hlive : g.Live slot)
    (hcell : g.slot? (cellId cell.x cell.y) = some target) :
    ∃ g', completeEdge slot d cell g = .ok () g' ∧ Mends d slot g g' ∧ g'.SettledAt d slot cell ∧
      (g.SettledAt d slot cell → g'.edgeList = g.edgeList) := by
  obtain ⟨g₁, e, hedit, hmends, hjoining, hthere, -⟩ := completeEdge_eq hg hi hlive hcell
  have hcell₁ : g₁.slot? (cellId cell.x cell.y) = some target := (hmends.slot? _).trans hcell
  have hsame : g.SettledAt d slot cell → g₁ = g ∧ (cell.isDiagonal = true → weighed d e.data = e.data) := by
    rintro ⟨target', e', hcell', hjoining', hweighed⟩
    obtain rfl := Option.some.inj (hcell.symm.trans hcell')
    have hg₁ := hthere (by rw [hjoining', Option.isSome_some])
    rw [hg₁, hjoining'] at hjoining
    obtain rfl := Option.some.inj hjoining
    exact ⟨hg₁, hweighed⟩
  refine ⟨_, hedit, ?_⟩
  cases hdiagonal : cell.isDiagonal with
  | false =>
      rw [if_neg Bool.false_ne_true]
      exact ⟨hmends, ⟨target, e, hcell₁, hjoining, by simp [hdiagonal]⟩, fun hsettled => by rw [(hsame hsettled).1]⟩
  | true =>
      rw [if_pos rfl]
      have hg₁ := (hmends.sound ⟨hg, hi⟩).1
      have he : e ∈ g₁.edgeList := List.mem_of_find?_eq_some hjoining
      have htouches : e.touches slot = true := by
        have hjoins : e.Joins slot target := by simpa using List.find?_some hjoining
        rcases hjoins with ⟨hsource, -⟩ | ⟨-, htarget⟩
        · simp [Edge.touches, hsource]
        · simp [Edge.touches, htarget]
      have hmended := Mends.weighDiagonal (d := d) hg₁ he htouches
      refine ⟨hmends.trans hmended, ⟨target, reweighed d e, (hmended.slot? _).trans hcell₁, ?_, fun _ => ?_⟩, ?_⟩
      · have hchanged := joining?_changeEdge hg₁ e.id (f := reweighed d) (fun _ => ⟨rfl, rfl, rfl⟩) slot target
        rw [hjoining, Option.map_some, if_pos rfl] at hchanged
        exact hchanged
      · exact weighed_weighed d d e.data
      · intro hsettled
        obtain ⟨rfl, hweighed⟩ := hsame hsettled
        exact edgeList_weighDiagonal hg₁ he (hweighed hdiagonal)

/-- Completing the edges around a slot leads wherever completing them towards each of the cells does. -/
theorem completeEdges_reaches (ht : Tiled spec g) (hi : g.Indexed) {n : Node} (hn : g.node? slot = some n)
    (Leads : Graph → Graph → Prop) (Reached : Neighbour → Graph → Prop) (hrefl : ∀ s, Leads s s)
    (htrans : ∀ {s t u}, Leads s t → Leads t u → Leads s u)
    (hmends : ∀ {s t}, Leads s t → Mends spec.diagonal slot s t)
    (hkeeps : ∀ {cell s t}, Leads s t → Reached cell s → Reached cell t)
    (hstep : ∀ cell ∈ neighbours spec.width spec.height n.x n.y, ∀ s target, s.Arena → s.Indexed → SameCells g s →
      s.slot? (cellId cell.x cell.y) = some target →
        ∃ t, completeEdge slot spec.diagonal cell s = .ok () t ∧ Leads s t ∧ Reached cell t) :
    ∃ g', completeEdges slot g = .ok () g' ∧ Leads g.reindex g' ∧
      ∀ cell ∈ neighbours spec.width spec.height n.x n.y, Reached cell g' := by
  have hreindex : Mends spec.diagonal slot g g.reindex := .reindex g
  obtain ⟨g', hall, hleads, hreached⟩ := Edit.forM_reaches (neighbours spec.width spec.height n.x n.y)
    (completeEdge slot spec.diagonal) Leads Reached g.reindex hrefl htrans hkeeps (by
      intro cell hcell s hs
      have hs := hreindex.trans (hmends hs)
      obtain ⟨-, hx, hy⟩ := mem_neighbours.mp hcell
      obtain ⟨target, htarget⟩ := ht.filled hx hy
      obtain ⟨harena, hindexed⟩ := hs.sound ⟨ht.arena, hi⟩
      exact hstep cell hcell s target harena hindexed hs.toSameCells ((hs.slot? _).trans htarget))
  refine ⟨g', ?_, hleads, hreached⟩
  rw [← hall]
  simp [completeEdges, gridSpec, ht.grid, hn]

/-- **Completing the edges around a cell settles it**, and changes no edge exactly if it was settled before. -/
theorem completeEdges_settles (ht : Tiled spec g) (hi : g.Indexed) (hlive : g.Live slot) :
    ∃ g', completeEdges slot g = .ok () g' ∧ Mends spec.diagonal slot g g' ∧ g'.Settled slot ∧
      (g'.edgeList = g.edgeList ↔ g.Settled slot) := by
  obtain ⟨n, hn⟩ := live_iff.mp hlive
  have hreindex : Mends spec.diagonal slot g g.reindex := .reindex g
  obtain ⟨g', hcompleted, ⟨hmends, hsame⟩, hsettled⟩ := completeEdges_reaches ht hi hn
    (fun s t => Mends spec.diagonal slot s t ∧ (s.Settled slot → t.edgeList = s.edgeList))
    (fun cell s => s.SettledAt spec.diagonal slot cell) (fun s => ⟨.refl s, fun _ => rfl⟩)
    (fun hs ht => ⟨hs.1.trans ht.1, fun hsettled =>
      (ht.2 (hsettled.of_plan hs.1.plan (hs.2 hsettled))).trans (hs.2 hsettled)⟩)
    And.left (fun hs hreached => hreached.mends hs.1)
    (by
      intro cell hcell s target harena hindexed hs htarget
      have hn' : s.node? slot = some n := (hs.node? slot).trans hn
      obtain ⟨t, hedit, hmends, hsettled, hsame⟩ := completeEdge_settles (d := spec.diagonal) harena hindexed
        (live_iff.mpr ⟨n, hn'⟩) htarget
      exact ⟨t, hedit, ⟨hmends, fun h => hsame (h spec n (hs.grid.trans ht.grid) hn' cell hcell)⟩, hsettled⟩)
  have hmends := hreindex.trans hmends
  have hsettled : g'.Settled slot := by
    intro spec' n' hgrid hn' cell hcell
    obtain rfl := Option.some.inj (ht.grid.symm.trans (hmends.grid.symm.trans hgrid))
    obtain rfl := Option.some.inj (hn.symm.trans ((hmends.node? slot).symm.trans hn'))
    exact hsettled cell hcell
  exact ⟨g', hcompleted, hmends, hsettled, fun hedges => (settled_iff_of_plan hmends.plan hedges).mp hsettled,
    fun h => hsame (h.of_plan hreindex.plan rfl)⟩

/-! ## Cells that are not settled -/

/-- There is a grid of four cells whose edge across one of the corners has lost its cost. -/
theorem exists_unsettled : ∃ (g : Graph) (slot : Nat), g.Reachable ∧ g.slot? (cellId 0 0) = some slot ∧
    g.Linked slot ∧ ¬ g.Settled slot := by
  obtain ⟨origin, hmade, hlattice, -, -, -, hweighed⟩ := lattice_ofGrid 2 2 (completable_unchecked .euclidean)
  obtain ⟨a, ha⟩ := hlattice.tiled.filled (x := 0) (y := 0) (by decide) (by decide)
  obtain ⟨b, hb⟩ := hlattice.tiled.filled (x := 1) (y := 1) (by decide) (by decide)
  have hplace := hlattice.tiled.slot?_cellId.mp ha
  have hcontact : origin.contact? a b = some .diagonal :=
    contact?_of_places hplace (hlattice.tiled.slot?_cellId.mp hb)
  obtain ⟨p, e, he, hjoins⟩ := hlattice.joined hcontact
  have hreachable : ((Operation.setEdge e.id true [] []).run origin).Reachable := (Reachable.fresh (.grid hmade)).run _
  have hcells : SameCells origin ((Operation.setEdge e.id true [] []).run origin) :=
    (SameCells.updateEdge origin e.id _).trans ⟨rfl, rfl, rfl, rfl, rfl⟩
  have hjoining := joining?_changeEdge hlattice.wired.arena e.id
    (f := fun e => { e with bidirectional := true, data := [], style := [] }) fun _ => ⟨rfl, rfl, rfl⟩
  refine ⟨_, a, hreachable, (hcells.slot? _).trans ha, ?_, fun hsettled => ?_⟩
  · intro spec n hgrid hn cell hcell
    obtain ⟨target, e', htarget, hfirst, -⟩ := settled_of_lattice hlattice hweighed a spec n
      (hcells.grid.symm.trans hgrid) ((hcells.node? a).symm.trans hn) cell hcell
    have hthere := hjoining a target
    rw [hfirst, Option.map_some] at hthere
    exact ⟨target, _, (hcells.slot? _).trans htarget, hthere⟩
  · obtain ⟨n, hn, hat⟩ := Option.map_eq_some_iff.mp hplace
    obtain ⟨hx, hy⟩ := Prod.mk.inj hat
    obtain ⟨target, e', htarget, hfirst, hkept⟩ := hsettled _ n (hcells.grid.trans hlattice.grid)
      ((hcells.node? a).trans hn) ⟨1, 1, true⟩ (by rw [hx, hy]; decide)
    obtain rfl := Option.some.inj (hb.symm.trans ((hcells.slot? _).symm.trans htarget))
    have hcleared := hjoining a b
    rw [hlattice.wired.joining?_of_joins he hjoins, Option.map_some, if_pos rfl] at hcleared
    obtain rfl := Option.some.inj (hcleared.symm.trans hfirst)
    exact weighed_ne_nil _ _ (hkept rfl)

end Graph

end SearchLab
