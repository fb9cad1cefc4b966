import SearchLab.Proofs.Graph.Refusal
import SearchLab.Proofs.Graph.Settled

/-!
# Pictures of graphs

A picture of a graph shows its size, its nodes and stored edges with all their bags, the start, the goal and how the
search ended. Whoever has drawn it lowers a flag, and an operation that changes the picture is to raise the flag again:
it asks for a redraw. Each operation does so in a place of its own. Completing the edges around a cell does it for each
edge that it lays, but not where all it does is to set the cost of diagonals in the data of one.

* `completeEdges_asks_iff` — completing edges asks for none just where an edge joins the cell to each one around it;
* `announced_of_edit` — every operation leaves the picture alone or asks for a redraw, unless it is overlooked;
* `announced_of_worked` — so do all operations between two drawings;
* `picture_changes_unasked_iff` — when a picture changes and no redraw is asked for;
* `cost_changes_unasked` — that this happens.
-/

namespace SearchLab.Graph

variable {g g' g'' : Graph} {d : Diagonal} {slot target : Nat} {cell : Neighbour}

/-- Two graphs make the same picture. -/
structure SamePicture (g g' : Graph) : Prop where
  grid : g'.grid = g.grid
  nodes : g'.nodeList = g.nodeList
  edges : g'.edgeList = g.edgeList
  start : g'.start = g.start
  goal : g'.goal = g.goal
  outcome : g'.outcome = g.outcome

namespace SamePicture

theorem refl (g : Graph) : SamePicture g g := ⟨rfl, rfl, rfl, rfl, rfl, rfl⟩

theorem trans (h : SamePicture g g') (h' : SamePicture g' g'') : SamePicture g g'' where
  grid := h'.grid.trans h.grid
  nodes := h'.nodes.trans h.nodes
  edges := h'.edges.trans h.edges
  start := h'.start.trans h.start
  goal := h'.goal.trans h.goal
  outcome := h'.outcome.trans h.outcome

end SamePicture

/-- From one graph to another the picture and the flag stay, or a redraw is asked for at the end. -/
def Announced (g g' : Graph) : Prop := (SamePicture g g' ∧ g'.needsRedraw = g.needsRedraw) ∨ g'.needsRedraw = true

namespace Announced

theorem refl (g : Graph) : Announced g g := .inl ⟨.refl g, rfl⟩

theorem trans (h : Announced g g') (h' : Announced g' g'') : Announced g g'' := by
  rcases h' with ⟨hsame', hflag'⟩ | hasked'
  · rcases h with ⟨hsame, hflag⟩ | hasked
    · exact .inl ⟨hsame.trans hsame', hflag'.trans hflag⟩
    · exact .inr (hflag'.trans hasked)
  · exact .inr hasked'

end Announced

/-! ## Edits that ask for a redraw -/

/-- Where the edit succeeds it asks for a redraw. -/
def Asks {α : Type} (edit : Edit Graph α) : Prop := ∀ g g' a, edit g = .ok a g' → g'.needsRedraw = true

theorem asks_addNode (id : String) (data : Bag) : Asks (addNode id data) := by
  intro g g' s h
  obtain ⟨-, -, -, rfl⟩ := addNode_ok_iff.mp h
  rfl

theorem asks_addEdge (source target : Nat) (bidirectional : Bool) (data : Bag) :
    Asks (addEdge source target bidirectional data) := by
  intro g g' id h
  obtain ⟨-, -, -, rfl⟩ := addEdge_ok_iff.mp h
  rfl

theorem asks_removeEdge (id : EdgeId) : Asks (removeEdge id) := by
  intro g g' e h
  unfold removeEdge at h
  split at h
  · cases h
  · cases h
    rfl

theorem asks_reorientEdge (id : EdgeId) : Asks (reorientEdge id) := by
  intro g g' u h
  unfold reorientEdge at h
  split at h
  · cases h
  · cases h
    rfl

theorem asks_setStart (s : Option Nat) : Asks (setStart s) := by
  intro g g' u h
  unfold setStart at h
  split at h
  · cases h
  · cases h
    rfl

theorem asks_setGoal (s : Option Nat) : Asks (setGoal s) := by
  intro g g' u h
  unfold setGoal at h
  split at h
  · cases h
  · cases h
    rfl

theorem asks_setNodeState (slot : Nat) (state : String) : Asks (setNodeState slot state) := by
  intro g g' u h
  unfold setNodeState at h
  split at h
  · cases h
  · cases h
    rfl

theorem asks_completeAllEdges : Asks completeAllEdges := by
  intro g g' u h
  unfold completeAllEdges at h
  split at h
  · cases h
  · cases h
    rfl

theorem asks_setDiagonal (d : Diagonal) : Asks (setDiagonal d) := by
  intro g g' u h
  unfold setDiagonal at h
  split at h
  · cases h
  · exact asks_completeAllEdges _ g' u h

theorem asks_resize (width height : Nat) : Asks (resize width height) := by
  intro g g' u h
  unfold resize at h
  split at h
  · cases h
  · dsimp only at h
    split_ifs at h
    split at h
    · cases h
    · exact asks_completeAllEdges _ g' u h

/-- A node that is dropped leaves the picture; where there is none nothing changes. -/
theorem announced_of_removeNode {there : Bool} (h : removeNode slot g = .ok there g') : Announced g g' := by
  unfold removeNode at h
  split_ifs at h
  cases h
  cases hn : g.node? slot with
  | none =>
      have hsame : g.dropNode slot = g := by rw [dropNode, hn]
      exact hsame.symm ▸ .refl g
  | some n => exact .inr (by rw [dropNode, hn])

/-- A write that is made asks for a redraw, and one that is passed over changes nothing. -/
theorem announced_of_setProperty (hg : g.Reachable) {t : Target} {name : String} {value : Json} {made : Bool}
    (h : setProperty t name value g = .ok made g') : Announced g g' := by
  cases made with
  | false =>
      obtain rfl := eq_of_passedOver hg h
      exact .refl g'
  | true =>
      obtain ⟨-, -, g₁, -, -, -, rfl⟩ := of_setProperty h
      exact .inr rfl

/-! ## Completing edges -/

@[simp] theorem needsRedraw_updateEdge (g : Graph) (id : EdgeId) (f : Edge → Option Edge) :
    (g.updateEdge id f).needsRedraw = g.needsRedraw := by
  unfold updateEdge
  split <;> rfl

theorem linkedAt_weighDiagonal (hg : g.Arena) (id : EdgeId) (cell : Neighbour) :
    (g.weighDiagonal id d).LinkedAt slot cell ↔ g.LinkedAt slot cell := by
  have hcells : SameCells g (g.weighDiagonal id d) := .updateEdge g id _
  have hjoining : ∀ b, (g.weighDiagonal id d).joining? slot b = _ :=
    joining?_changeEdge hg id (f := reweighed d) (fun _ => ⟨rfl, rfl, rfl⟩) slot
  simp only [LinkedAt, hcells.slot?, hjoining, Option.map_eq_some_iff]
  constructor
  · rintro ⟨b, _, hb, e, he, -⟩
    exact ⟨b, e, hb, he⟩
  · rintro ⟨b, e, hb, he⟩
    exact ⟨b, _, hb, e, he, rfl⟩

/-- One graph comes of another by mending around a slot, and a redraw is asked for just where an edge is laid: the flag
is kept where all of the cells are linked already, and where it is down at the end no cell was linked anew. -/
structure Flags (d : Diagonal) (slot : Nat) (cells : List Neighbour) (g g' : Graph) : Prop where
  mends : Mends d slot g g'
  kept : (∀ cell ∈ cells, g.LinkedAt slot cell) → g'.needsRedraw = g.needsRedraw
  unasked : g'.needsRedraw = false → g.needsRedraw = false ∧ ∀ cell, g'.LinkedAt slot cell → g.LinkedAt slot cell

namespace Flags

variable {cells : List Neighbour}

theorem refl (g : Graph) : Flags d slot cells g g where
  mends := .refl g
  kept _ := rfl
  unasked hclear := ⟨hclear, fun _ hcell => hcell⟩

theorem trans (h : Flags d slot cells g g') (h' : Flags d slot cells g' g'') : Flags d slot cells g g'' where
  mends := h.mends.trans h'.mends
  kept hlinked := (h'.kept fun cell hcell => (hlinked cell hcell).mends h.mends).trans (h.kept hlinked)
  unasked hclear := by
    obtain ⟨hmiddle, hlinks'⟩ := h'.unasked hclear
    obtain ⟨hfirst, hlinks⟩ := h.unasked hmiddle
    exact ⟨hfirst, fun cell hcell => hlinks cell (hlinks' cell hcell)⟩

end Flags

/-- Completing the edge towards a cell asks for a redraw just where it lays one. -/
theorem completeEdge_flags (hg : g.Arena) (hi : g.Indexed) (hlive : g.Live slot)
    (hcell : g.slot? (cellId cell.x cell.y) = some target) {cells : List Neighbour} (hmem : cell ∈ cells) :
    ∃ g', completeEdge slot d cell g = .ok () g' ∧ Flags d slot cells g g' ∧ g'.LinkedAt slot cell := by
  obtain ⟨g', hedit, hmends, hsettled, -⟩ := completeEdge_settles (d := d) hg hi hlive hcell
  obtain ⟨g₁, e, hedit', hmends₁, -, hthere, hmissing⟩ := completeEdge_eq (d := d) hg hi hlive hcell
  have hg' : g' = if cell.isDiagonal then g₁.weighDiagonal e.id d else g₁ := by
    rw [hedit] at hedit'
    cases hedit'
    rfl
  have hflag : g'.needsRedraw = g₁.needsRedraw := by
    rw [hg']
    split
    · exact needsRedraw_updateEdge g₁ _ _
    · rfl
  have hlinks : ∀ c, g'.LinkedAt slot c → g₁.LinkedAt slot c := by
    intro c hc
    rw [hg'] at hc
    split at hc
    · exact (linkedAt_weighDiagonal (hmends₁.sound ⟨hg, hi⟩).1 _ c).mp hc
    · exact hc
  refine ⟨g', hedit, ⟨hmends, fun hlinked => ?_, fun hclear => ?_⟩, hsettled.linkedAt⟩
  · obtain ⟨b, e', hb, he'⟩ := hlinked cell hmem
    obtain rfl := Option.some.inj (hcell.symm.trans hb)
    rw [hflag, hthere (by rw [he', Option.isSome_some])]
  · rw [hflag] at hclear
    cases hjoining : g.joining? slot target with
    | none => cases hclear.symm.trans (hmissing hjoining)
    | some e' =>
        have hg₁ : g₁ = g := hthere (by rw [hjoining, Option.isSome_some])
        rw [hg₁] at hclear hlinks
        exact ⟨hclear, hlinks⟩

/-- Where completing edges succeeds, there is a grid and a node in the slot. -/
theorem of_completeEdges (hg : g.Reachable) (h : completeEdges slot g = .ok () g') :
    ∃ spec n, Tiled spec g ∧ g.node? slot = some n := by
  unfold completeEdges at h
  split at h
  · cases h
  · rename_i spec hspec
    split at h
    · cases h
    · rename_i n hn
      exact ⟨spec, n, hg.tiled_of_grid (grid_of_gridSpec hspec), hn⟩

/-- Completing the edges around a cell asks for no redraw just where it was linked to each of them. -/
theorem completeEdges_asks_iff (hg : g.Reachable) (h : completeEdges slot g = .ok () g') :
    g'.needsRedraw = false ↔ g.needsRedraw = false ∧ g.Linked slot := by
  obtain ⟨spec, n, ht, hn⟩ := of_completeEdges hg h
  obtain ⟨t, hcompleted, hflags, hlinked⟩ := completeEdges_reaches ht hg.arena_indexed.2 hn
    (Flags spec.diagonal slot (neighbours spec.width spec.height n.x n.y)) (fun cell s => s.LinkedAt slot cell)
    .refl .trans Flags.mends (fun hs hreached => hreached.mends hs.mends)
    (fun cell hcell s target harena hindexed hs htarget =>
      completeEdge_flags harena hindexed (live_iff.mpr ⟨n, (hs.node? slot).trans hn⟩) htarget hcell)
  obtain rfl : t = g' := by
    rw [hcompleted] at h
    cases h
    rfl
  rw [linked_iff ht.grid hn]
  constructor
  · intro hclear
    obtain ⟨hfirst, hlinks⟩ := hflags.unasked hclear
    exact ⟨hfirst, fun cell hcell => hlinks cell (hlinked cell hcell)⟩
  · rintro ⟨hclear, hlinks⟩
    exact (hflags.kept hlinks).trans hclear

/-- Completing the edges around a cell leaves the picture alone just where it was settled. -/
theorem samePicture_completeEdges_iff (hg : g.Reachable) (h : completeEdges slot g = .ok () g') :
    SamePicture g g' ↔ g.Settled slot := by
  obtain ⟨spec, n, ht, hn⟩ := of_completeEdges hg h
  obtain ⟨t, ht', hmends, -, hiff⟩ := completeEdges_settles ht hg.arena_indexed.2 (live_iff.mpr ⟨n, hn⟩)
  obtain rfl : t = g' := by
    rw [ht'] at h
    cases h
    rfl
  refine ⟨fun hsame => hiff.mp hsame.edges, fun hsettled => ?_⟩
  exact ⟨hmends.grid, by rw [nodeList, hmends.nodes, nodeList], hiff.mpr hsettled, hmends.start, hmends.goal,
    hmends.outcome⟩

/-! ## Operations -/

/-- What an operation does is overlooked: it completes the edges around a cell that is linked to all those around it and
yet not settled, so that an edge across a corner gets another cost and no edge is laid. -/
def Overlooks (g : Graph) (op : Operation) : Prop := ∃ s, op = .completeEdges s ∧ g.Linked s ∧ ¬ g.Settled s

theorem announced_of_completeEdges (hg : g.Reachable) (hseen : ¬ g.Overlooks (.completeEdges slot))
    (h : completeEdges slot g = .ok () g') : Announced g g' := by
  have hasks := completeEdges_asks_iff hg h
  by_cases hlinked : g.Linked slot
  · have hsettled : g.Settled slot := by
      by_contra hunsettled
      exact hseen ⟨slot, rfl, hlinked, hunsettled⟩
    refine .inl ⟨(samePicture_completeEdges_iff hg h).mpr hsettled, ?_⟩
    rw [Bool.eq_iff_iff, ← not_iff_not, Bool.not_eq_true, Bool.not_eq_true, hasks]
    exact and_iff_left hlinked
  · refine .inr ?_
    by_contra hclear
    exact hlinked (hasks.mp ((Bool.not_eq_true _).mp hclear)).2

/-- **Every operation that succeeds leaves the picture alone or asks for a redraw**, unless it is overlooked. A drawing
lowers the flag. -/
theorem announced_of_edit (hg : g.Reachable) {op : Operation} (hdrawn : op = .drawn → g.needsRedraw = false)
    (hseen : ¬ g.Overlooks op) (h : op.edit g = .ok () g') : Announced g g' := by
  cases op with
  | addNode id data =>
      obtain ⟨s, hadd⟩ := Edit.of_discard_ok h
      exact .inr (asks_addNode id data g g' s hadd)
  | removeNode s =>
      obtain ⟨there, hremove⟩ := Edit.of_discard_ok h
      exact announced_of_removeNode hremove
  | addEdge source target bidirectional data =>
      obtain ⟨id, hadd⟩ := Edit.of_discard_ok h
      exact .inr (asks_addEdge source target bidirectional data g g' id hadd)
  | removeEdge id =>
      obtain ⟨e, hremove⟩ := Edit.of_discard_ok h
      exact .inr (asks_removeEdge id g g' e hremove)
  | reorientEdge id => exact .inr (asks_reorientEdge id g g' () h)
  | setStart s => exact .inr (asks_setStart s g g' () h)
  | setGoal s => exact .inr (asks_setGoal s g g' () h)
  | setNodeState s state => exact .inr (asks_setNodeState s state g g' () h)
  | setProperty t name value =>
      obtain ⟨made, hset⟩ := Edit.of_discard_ok h
      exact announced_of_setProperty hg hset
  | completeEdges s => exact announced_of_completeEdges hg hseen h
  | completeAllEdges => exact .inr (asks_completeAllEdges g g' () h)
  | setDiagonal d => exact .inr (asks_setDiagonal d g g' () h)
  | resize width height => exact .inr (asks_resize width height g g' () h)
  | setNode | setEdge | setOutcome | resetSearch | redraw =>
      cases h
      exact .inr rfl
  | setDefaults | reindex | unindex =>
      cases h
      exact .inl ⟨⟨rfl, rfl, rfl, rfl, rfl, rfl⟩, rfl⟩
  | takeEdgeId =>
      cases h
      exact .inl ⟨⟨rfl, rfl, by simp [takeEdgeId, edgeList], rfl, rfl, rfl⟩, rfl⟩
  | drawn =>
      cases h
      exact .inl ⟨⟨rfl, rfl, rfl, rfl, rfl, rfl⟩, (hdrawn rfl).symm⟩

/-- What operations lead to that succeed one after the other, none of them a drawing and none overlooked. -/
inductive Worked (g : Graph) : Graph → Prop
  | refl : Worked g g
  | step {g' g'' : Graph} {op : Operation} (before : Worked g g') (hdrawn : op ≠ .drawn) (hseen : ¬ g'.Overlooks op)
      (h : op.edit g' = .ok () g'') : Worked g g''

/-- **Between two drawings** all operations together leave the picture alone or ask for a redraw, as long as none of
them is overlooked. -/
theorem announced_of_worked (hg : g.Reachable) (h : Worked g g') : g'.Reachable ∧ Announced g g' := by
  induction h with
  | refl => exact ⟨hg, .refl g⟩
  | @step g' g'' op _ hdrawn hseen h ih =>
      obtain ⟨hg', hannounced⟩ := ih
      have hrun : op.run g' = g'' := Edit.after_ok h
      exact ⟨hrun ▸ hg'.run op, hannounced.trans (announced_of_edit hg' (fun hop => absurd hop hdrawn) hseen h)⟩

/-! ## Pictures that change unasked -/

/-- **When the picture changes and no redraw is asked for.** Whatever operation succeeds on a graph that has been drawn,
it asks for a redraw if a node, a stored edge, the start, the goal, the outcome or the size is another one afterwards.
There is just one exception: completing the edges around a cell that is linked to all those around it and yet is not
settled, so that an edge across a corner gets another cost. -/
theorem picture_changes_unasked_iff (hg : g.Reachable) (hclear : g.needsRedraw = false) {op : Operation}
    (h : op.edit g = .ok () g') :
    (¬ SamePicture g g' ∧ g'.needsRedraw = false) ↔ ∃ s, op = .completeEdges s ∧ g.Linked s ∧ ¬ g.Settled s := by
  constructor
  · rintro ⟨hchanged, hclear'⟩
    by_contra hseen
    rcases announced_of_edit hg (fun _ => hclear) hseen h with ⟨hsame, -⟩ | hasked
    · exact hchanged hsame
    · cases hclear'.symm.trans hasked
  · rintro ⟨s, rfl, hlinked, hunsettled⟩
    rw [samePicture_completeEdges_iff hg h, completeEdges_asks_iff hg h]
    exact ⟨hunsettled, hclear, hlinked⟩

/-- There is a grid that has been drawn and on which completing the edges around a cell changes a cost only. -/
theorem exists_drawn_unsettled : ∃ (g g' : Graph) (s : Nat), g.Reachable ∧ g.needsRedraw = false ∧
    (Operation.completeEdges s).edit g = .ok () g' ∧ g.Linked s ∧ ¬ g.Settled s := by
  obtain ⟨origin, slot, horigin, hslot, hlinked, hunsettled⟩ := exists_unsettled
  have hg : origin.drawn.Reachable := horigin.run .drawn
  obtain ⟨n, hn, -⟩ := (hg.arena_indexed.1.lookup _ _).mp hslot
  cases hgrid : origin.grid with
  | none => exact absurd (settled_of_freeForm hgrid slot) hunsettled
  | some spec =>
      obtain ⟨g', hcompleted, -⟩ :=
        completeEdges_settles (hg.tiled_of_grid hgrid) hg.arena_indexed.2 (live_iff.mpr ⟨n, hn⟩)
      exact ⟨origin.drawn, g', slot, hg, rfl, hcompleted, hlinked, hunsettled⟩

/-- On a grid of four cells that has been drawn, an edge across a corner gets its cost back. -/
theorem picture_changes_unasked_iff_sample : ∃ (g g' : Graph) (s : Nat), g.Reachable ∧ g.needsRedraw = false ∧
    (Operation.completeEdges s).edit g = .ok () g' ∧ ¬ SamePicture g g' ∧ g'.needsRedraw = false := by
  obtain ⟨g, g', s, hg, hdrawn, hcompleted, hlinked, hunsettled⟩ := exists_drawn_unsettled
  exact ⟨g, g', s, hg, hdrawn, hcompleted,
    (picture_changes_unasked_iff hg hdrawn hcompleted).mpr ⟨s, rfl, hlinked, hunsettled⟩⟩

/-- Not every operation that changes the picture asks for a redraw. -/
theorem cost_changes_unasked :
    ¬ ∀ (g g' : Graph) (op : Operation), g.Reachable → g.needsRedraw = false → op.edit g = .ok () g' →
      ¬ SamePicture g g' → g'.needsRedraw = true := by
  intro hasks
  obtain ⟨g, g', s, hg, hdrawn, hcompleted, hlinked, hunsettled⟩ := exists_drawn_unsettled
  have hchanged : ¬ SamePicture g g' := fun hsame => hunsettled ((samePicture_completeEdges_iff hg hcompleted).mp hsame)
  have hclear := (completeEdges_asks_iff hg hcompleted).mpr ⟨hdrawn, hlinked⟩
  cases hclear.symm.trans (hasks g g' _ hg hdrawn hcompleted hchanged)

end SearchLab.Graph
