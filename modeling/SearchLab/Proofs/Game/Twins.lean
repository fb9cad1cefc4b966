import SearchLab.Proofs.Bag
import SearchLab.Proofs.Game.Play

/-!
# Trees that differ in what a search writes into them

Between two expansions a search writes into its tree: what positions are worth, their best moves, and which edges are
highlighted. `Twins` are two trees that differ in nothing else. An expansion reads nothing of what was written, so it
does the same to both of them.

* `Graph.SameUnlit.ancestors` — path counts are raised at the same nodes;
* `Twins.grow` — twins grow into twins;
* `Twins.settle`, `Twins.resetUtilities`, `Twins.highlight` — whatever a search writes leaves a twin.
-/

namespace SearchLab

/-! ## Edges without light -/

/-- An edge as it is when it is not highlighted. -/
def Edge.dark (e : Edge) : Edge := { e with data := e.data.set "highlighted" (.bool false) }

namespace Edge

variable (e : Edge)

theorem get?_dark {key : String} (h : key ≠ "highlighted") : e.dark.data.get? key = e.data.get? key := by
  rw [dark, Bag.get?_set, if_neg (Ne.symm h)]

theorem isForbidden_dark : e.dark.isForbidden = e.isForbidden := by
  rw [isForbidden, isForbidden, Bag.isTruthy, Bag.isTruthy, e.get?_dark (by decide)]

theorem isFlipped_dark : e.dark.isFlipped = e.isFlipped := by
  rw [isFlipped, isFlipped, Bag.isTruthy, Bag.isTruthy, e.get?_dark (by decide)]

theorem actionOf_dark : Game.Tree.actionOf e.dark = Game.Tree.actionOf e := by
  rw [Game.Tree.actionOf, Game.Tree.actionOf, e.get?_dark (by decide)]

/-- Switching the light of an edge on or off does not change what it is without it. -/
theorem dark_set (lit : Json) : dark { e with data := e.data.set "highlighted" lit } = e.dark := by
  rw [dark, dark, Bag.set_set]

end Edge

/-- The view of an edge as it is when it is not highlighted. -/
def EdgeView.dark (v : EdgeView) : EdgeView := { v with edge := v.edge.dark }

namespace Graph

/-- Two graphs have the same nodes, and the same edges but for those that are highlighted. -/
structure SameUnlit (g h : Graph) : Prop where
  grid : h.grid = g.grid
  nodes : h.nodes = g.nodes
  slots : h.slots = g.slots
  edges : h.edges.map (Option.map Edge.dark) = g.edges.map (Option.map Edge.dark)

namespace SameUnlit

open Edit (Agree)

variable {g h k : Graph}

theorem refl (g : Graph) : SameUnlit g g := ⟨rfl, rfl, rfl, rfl⟩

theorem symm (hgh : SameUnlit g h) : SameUnlit h g :=
  ⟨hgh.grid.symm, hgh.nodes.symm, hgh.slots.symm, hgh.edges.symm⟩

theorem trans (hgh : SameUnlit g h) (hhk : SameUnlit h k) : SameUnlit g k :=
  ⟨hhk.grid.trans hgh.grid, hhk.nodes.trans hgh.nodes, hhk.slots.trans hgh.slots, hhk.edges.trans hgh.edges⟩

theorem node? (hgh : SameUnlit g h) (slot : Nat) : h.node? slot = g.node? slot := by
  rw [Graph.node?, Graph.node?, hgh.nodes]

theorem slot? (hgh : SameUnlit g h) (id : String) : h.slot? id = g.slot? id := by
  rw [Graph.slot?, Graph.slot?, hgh.slots]

theorem edges_size (hgh : SameUnlit g h) : h.edges.size = g.edges.size := by
  simpa using congrArg Array.size hgh.edges

theorem edgeList (hgh : SameUnlit g h) : h.edgeList.map Edge.dark = g.edgeList.map Edge.dark := by
  have hall : ∀ g : Graph, g.edgeList.map Edge.dark = (g.edges.map (Option.map Edge.dark)).toList.filterMap id := by
    intro g
    simp [Graph.edgeList, List.map_filterMap, List.filterMap_map]
  rw [hall, hall, hgh.edges]

/-! ### The nodes before a node -/

theorem isTraversable (hgh : SameUnlit g h) (v : EdgeView) : h.isTraversable v.dark = g.isTraversable v := by
  simp only [Graph.isTraversable, hgh.node?, EdgeView.dark, v.edge.isForbidden_dark, v.edge.isFlipped_dark]
  rfl

/-- The nodes from which an edge can be walked to a node. -/
def sourcesTo (g : Graph) (slot : Nat) (e : Edge) : List Nat :=
  (g.passable false (viewsTo slot e)).map EdgeView.source

theorem sourcesTo_dark (hgh : SameUnlit g h) (slot : Nat) (e : Edge) : sourcesTo h slot e.dark = sourcesTo g slot e := by
  have hviews : viewsTo slot e.dark = (viewsTo slot e).map EdgeView.dark := by
    have hsource : e.dark.source = e.source := rfl
    have htarget : e.dark.target = e.target := rfl
    unfold viewsTo
    rw [hsource, htarget]
    by_cases hs : e.source = slot <;> by_cases ht : e.target = slot <;> simp [hs, ht, EdgeView.dark]
  rw [sourcesTo, hviews, passable, List.filter_map, List.map_map]
  simp only [Function.comp_def, hgh.isTraversable]
  rfl

/-- The nodes one step before a node do not depend on which edges are highlighted. -/
theorem sources_arriving (hgh : SameUnlit g h) (hg : g.Arena) (hh : h.Arena) (hindexed : g.Indexed)
    (hindexed' : h.Indexed) (slot : Nat) :
    (h.arriving slot).map EdgeView.source = (g.arriving slot).map EdgeView.source := by
  have hall : ∀ {g : Graph}, g.Arena → g.Indexed →
      (g.arriving slot).map EdgeView.source = g.edgeList.flatMap (sourcesTo g slot) := by
    intro g hg hindexed
    rw [arriving_eq hg hindexed, passable, List.filter_flatMap, List.map_flatMap]
    rfl
  calc (h.arriving slot).map EdgeView.source
      = h.edgeList.flatMap (sourcesTo h slot) := hall hh hindexed'
    _ = (h.edgeList.map Edge.dark).flatMap (sourcesTo h slot) := by
        simp only [List.flatMap_map, sourcesTo_dark (.refl h)]
    _ = (g.edgeList.map Edge.dark).flatMap (sourcesTo h slot) := by rw [hgh.edgeList]
    _ = g.edgeList.flatMap (sourcesTo g slot) := by simp only [List.flatMap_map, sourcesTo_dark hgh]
    _ = (g.arriving slot).map EdgeView.source := (hall hg hindexed).symm

/-- **The nodes from which a node can be reached** do not depend on which edges are highlighted. -/
theorem ancestors (hgh : SameUnlit g h) (hg : g.Arena) (hh : h.Arena) (hindexed : g.Indexed) (hindexed' : h.Indexed)
    (slot : Nat) : h.ancestors slot = g.ancestors slot := by
  have hreindexed : SameUnlit g.reindex h.reindex := ⟨hgh.grid, hgh.nodes, hgh.slots, hgh.edges⟩
  have hsources : ∀ s, (h.reindex.arriving s).map EdgeView.source = (g.reindex.arriving s).map EdgeView.source :=
    hreindexed.sources_arriving ((Mutation.reindex g).arena hg) ((Mutation.reindex h).arena hh)
      ((Mutation.reindex g).indexed hindexed) ((Mutation.reindex h).indexed hindexed')
  have hothers : h.reindex.otherSlots slot = g.reindex.otherSlots slot := by
    rw [otherSlots, otherSlots, nodeList, nodeList, hreindexed.nodes]
  simp only [Graph.ancestors, hsources, hothers]

/-! ### Changes -/

/-- Nodes are changed in both graphs alike. -/
theorem modifyNode (hgh : SameUnlit g h) (slot : Nat) (f : Node → Node) :
    SameUnlit (g.modifyNode slot f) (h.modifyNode slot f) :=
  ⟨hgh.grid, by rw [Graph.modifyNode, Graph.modifyNode, hgh.nodes], hgh.slots, hgh.edges⟩

/-- A node is added to both graphs alike, or to neither. -/
theorem addNode (hgh : SameUnlit g h) (id : String) (data : Bag) :
    Agree SameUnlit (addNode id data g) (addNode id data h) := by
  have hgrid : h.isGrid = g.isGrid := by rw [Graph.isGrid, Graph.isGrid, hgh.grid]
  unfold Graph.addNode insertNode
  rw [hgrid, hgh.slots, hgh.nodes]
  split
  · exact .error _ hgh
  · split
    · exact .error _ hgh
    · exact .ok _ ⟨hgh.grid, rfl, rfl, hgh.edges⟩

/-- An edge is added to both graphs alike, or to neither. -/
theorem addEdge (hgh : SameUnlit g h) (source target : Nat) (bidirectional : Bool) (data : Bag) :
    Agree SameUnlit (addEdge source target bidirectional data g) (addEdge source target bidirectional data h) := by
  have hnext : h.nextEdgeId = g.nextEdgeId := by rw [nextEdgeId, nextEdgeId, hgh.edges_size]
  unfold Graph.addEdge
  rw [hgh.node?, hgh.node?, hnext]
  split
  · exact .error _ hgh
  · split
    · exact .error _ hgh
    · refine .ok _ ⟨hgh.grid, hgh.nodes, hgh.slots, ?_⟩
      simp only [restructured, Array.map_push, hgh.edges]

/-- Switching the light of an edge on or off leaves the graph as it is without it. -/
theorem light (g : Graph) (on : Bool) (id : EdgeId) : SameUnlit g (Game.Tree.light on g id) where
  grid := grid_updateEdge g id _
  nodes := nodes_updateEdge g id _
  slots := slots_updateEdge g id _
  edges := by
    refine Array.ext_getElem? fun p => ?_
    unfold Game.Tree.light modifyEdge redraw updateEdge
    cases place? id with
    | none => rfl
    | some place =>
        rw [Array.getElem?_map, Array.getElem?_map, Array.getElem?_modify]
        split
        · cases g.edges[p]? with
          | none => rfl
          | some entry => cases entry <;> simp [Edge.dark_set]
        · rfl

theorem lights (g : Graph) (on : Bool) (ids : List EdgeId) : SameUnlit g (ids.foldl (Game.Tree.light on) g) := by
  induction ids generalizing g with
  | nil => exact .refl g
  | cons id rest ih => exact (light g on id).trans (ih _)

end SameUnlit

end Graph

namespace Game

variable {π υ : Type}

/-- What an expansion may know of a position: the position and its moves. -/
def Entry.known (e : Entry π υ) : π × Option (List Move) := (e.position, e.moves)

namespace Tree

/-- Two trees differ at most in what a search has written into them. -/
structure Twins (s t : Tree π υ) : Prop where
  graph : s.graph.SameUnlit t.graph
  entries : t.entries.map Entry.known = s.entries.map Entry.known

namespace Twins

open Edit (Agree)

variable {s t u : Tree π υ}

theorem refl (t : Tree π υ) : Twins t t := ⟨.refl _, rfl⟩

theorem symm (h : Twins s t) : Twins t s := ⟨h.graph.symm, h.entries.symm⟩

theorem trans (h : Twins s t) (h' : Twins t u) : Twins s u :=
  ⟨h.graph.trans h'.graph, h'.entries.trans h.entries⟩

theorem size (h : Twins s t) : t.size = s.size := by
  simpa [Tree.size] using congrArg Array.size h.entries

theorem known (h : Twins s t) (slot : Nat) : (t.entry? slot).map Entry.known = (s.entry? slot).map Entry.known := by
  simpa [ entry?] using congrArg (·[slot]?) h.entries

theorem position? (h : Twins s t) (slot : Nat) : t.position? slot = s.position? slot := by
  have hknown := congrArg (Option.map Prod.fst) (h.known slot)
  simpa [Tree.position?, Entry.known, Function.comp_def] using hknown

/-- A position of one tree is found in the other, with the same moves. -/
theorem entry (h : Twins s t) {slot : Nat} {e : Entry π υ} (he : s.entry? slot = some e) :
    ∃ e', t.entry? slot = some e' ∧ e'.position = e.position ∧ e'.moves = e.moves := by
  have hknown := h.known slot
  rw [he, Option.map_some] at hknown
  obtain ⟨e', he', hsame⟩ := Option.map_eq_some_iff.mp hknown
  exact ⟨e', he', (Prod.mk.inj hsame).1, (Prod.mk.inj hsame).2⟩

theorem isExpanded (h : Twins s t) (slot : Nat) : t.isExpanded slot = s.isExpanded slot := by
  rw [Tree.isExpanded, Tree.isExpanded, h.graph.node?]

theorem pathCount (h : Twins s t) (slot : Nat) : t.pathCount slot = s.pathCount slot := by
  rw [Tree.pathCount, Tree.pathCount, h.graph.node?]

/-- The moves of the trees are the same edges. -/
theorem moves (h : Twins s t) :
    t.graph.edgeList.map (fun e => (e.id, e.source, e.target, actionOf e)) =
      s.graph.edgeList.map fun e => (e.id, e.source, e.target, actionOf e) := by
  have hall : ∀ edges : List Edge, edges.map (fun e => (e.id, e.source, e.target, actionOf e)) =
      (edges.map Edge.dark).map fun e => (e.id, e.source, e.target, actionOf e) := by
    intro edges
    rw [List.map_map]
    exact List.map_congr_left fun e _ => by rw [Function.comp_apply, e.actionOf_dark]; rfl
  rw [hall, h.graph.edgeList, ← hall]

/-! ## What a search writes -/

/-- Changing what is known beside a position and its moves leaves a twin. -/
theorem of_entries (hgraph : t.graph = s.graph) (h : t.entries.map Entry.known = s.entries.map Entry.known) : Twins s t :=
  ⟨hgraph ▸ .refl _, h⟩

theorem settle (t : Tree π υ) (v : Verdict υ) : Twins t (t.settle v) := by
  refine .of_entries rfl (Array.ext_getElem? fun p => ?_)
  rw [Array.getElem?_map, Array.getElem?_map, Tree.settle, modifyEntry, Array.getElem?_modify]
  split
  · rw [Option.map_map]
    rfl
  · rfl

theorem resetUtilities (t : Tree π υ) : Twins t t.resetUtilities :=
  .of_entries rfl (by rw [Tree.resetUtilities, Array.map_map]; rfl)

theorem highlight (t : Tree π υ) (slot : Nat) (line : List Move) : Twins t (t.highlight slot line) := by
  have hstart : t.graph.SameUnlit t.graph.reindex := ⟨rfl, rfl, rfl, rfl⟩
  exact ⟨hstart.trans ((Graph.SameUnlit.lights _ false _).trans (Graph.SameUnlit.lights _ true _)), rfl⟩

/-! ## What an expansion does -/

theorem raiseCount (h : Twins s t) (delta : UInt64) (slot : Nat) :
    Twins (raiseCount delta s slot) (raiseCount delta t slot) := by
  rw [Tree.raiseCount, Tree.raiseCount, h.pathCount]
  exact ⟨h.graph.modifyNode slot _, h.entries⟩

variable [Position π υ]

theorem addPaths (h : Twins s t) (hs : s.InStep) (ht : t.InStep) (slot : Nat) (delta : UInt64) :
    Twins (s.addPaths slot delta) (t.addPaths slot delta) := by
  rw [Tree.addPaths, Tree.addPaths, h.graph.ancestors hs.arena ht.arena hs.indexed ht.indexed]
  generalize s.graph.ancestors slot = slots
  clear hs ht
  induction slots generalizing s t with
  | nil => exact h
  | cons first rest ih => exact ih (h.raiseCount delta first)

omit [Position π υ] in
theorem markExpanded (h : Twins s t) (slot : Nat) (moves : List Move) :
    Twins (s.markExpanded slot moves) (t.markExpanded slot moves) := by
  have hall : ∀ entries : Array (Entry π υ), (entries.modify slot fun e => { e with moves := some moves }).map Entry.known =
      (entries.map Entry.known).modify slot fun k => (k.1, some moves) := by
    intro entries
    refine Array.ext_getElem? fun p => ?_
    simp only [Array.getElem?_map, Array.getElem?_modify]
    split <;> simp [Entry.known, Function.comp_def]
  refine ⟨h.graph.modifyNode slot _, ?_⟩
  calc (t.entries.modify slot fun e => { e with moves := some moves }).map Entry.known
      = (s.entries.modify slot fun e => { e with moves := some moves }).map Entry.known := by
        rw [hall, hall, h.entries]

/-- A position finds the same slot in both trees. -/
theorem ensureNode (h : Twins s t) (p : π) : Agree Twins (ensureNode p s) (ensureNode p t) := by
  unfold Tree.ensureNode
  rw [h.graph.slot?]
  cases s.graph.slot? (Position.id p) with
  | some slot => exact .ok _ h
  | none =>
      have hadded := h.graph.addNode (Position.id p) newData
      have hsize : t.entries.size = s.entries.size := h.size
      dsimp only
      generalize Graph.addNode (Position.id p) newData s.graph = r at hadded
      generalize Graph.addNode (Position.id p) newData t.graph = r' at hadded
      cases hadded with
      | error err hgraph => exact .error err ⟨hgraph, h.entries⟩
      | ok slot hgraph =>
          dsimp only
          rw [hsize]
          split
          · exact .ok _ ⟨hgraph, by rw [Array.map_push, Array.map_push, h.entries]⟩
          · exact .error _ ⟨hgraph, h.entries⟩

omit [Position π υ] in
theorem link (h : Twins s t) (source target : Nat) (action : Action) :
    Agree Twins (link source target action s) (link source target action t) := by
  have hadded := h.graph.addEdge source target false [("action", .object action)]
  unfold Tree.link
  generalize Graph.addEdge source target false [("action", .object action)] s.graph = r at hadded
  generalize Graph.addEdge source target false [("action", .object action)] t.graph = r' at hadded
  cases hadded with
  | error err hgraph => exact .error err ⟨hgraph, h.entries⟩
  | ok id hgraph => exact .ok id ⟨hgraph, h.entries⟩

theorem addMove (h : Twins s t) (source : Nat) (branch : Action × π) :
    Agree Twins (addMove source branch s) (addMove source branch t) := by
  have hensured := h.ensureNode branch.2
  unfold Tree.addMove
  generalize Tree.ensureNode branch.2 s = r at hensured
  generalize Tree.ensureNode branch.2 t = r' at hensured
  cases hensured with
  | error err h => exact .error err h
  | @ok found s t h =>
      have hlinked := h.link source found.1 branch.1
      dsimp only
      generalize Tree.link source found.1 branch.1 s = r at hlinked
      generalize Tree.link source found.1 branch.1 t = r' at hlinked
      cases hlinked with
      | error err h => exact .error err h
      | @ok id s t h =>
          have hid : t.positionId found.1 = s.positionId found.1 := by rw [positionId, positionId, h.position?]
          dsimp only
          rw [hid]
          exact .ok _ h

theorem addMoves (h : Twins s t) (source : Nat) (branches : List (Action × π)) :
    Agree Twins (addMoves source branches s) (addMoves source branches t) := by
  induction branches generalizing s t with
  | nil => exact .ok [] h
  | cons branch rest ih =>
      have hmove := h.addMove source branch
      unfold Tree.addMoves
      generalize Tree.addMove source branch s = r at hmove
      generalize Tree.addMove source branch t = r' at hmove
      cases hmove with
      | error err h => exact .error err h
      | @ok move s t h =>
          have hmoves := ih h
          dsimp only
          generalize Tree.addMoves source rest s = r at hmoves
          generalize Tree.addMoves source rest t = r' at hmoves
          cases hmoves with
          | error err h => exact .error err h
          | ok moves h => exact .ok _ h

/-- **Twins grow into twins.** -/
theorem grow (h : Twins s t) (hs : s.InStep) (ht : t.InStep) {slot : Nat} {e : Entry π υ} (he : s.entry? slot = some e)
    (p : π) (branches : List (Action × π)) : Agree Twins (grow slot p branches s) (grow slot p branches t) := by
  obtain ⟨e', he', _⟩ := h.entry he
  obtain ⟨moves, s₁, hmoves, hs₁, _⟩ := addMoves_spec hs he branches
  obtain ⟨moves', t₁, hmoves', ht₁, _⟩ := addMoves_spec ht he' branches
  have hadded := h.addMoves slot branches
  rw [hmoves, hmoves'] at hadded
  cases hadded with
  | ok _ h₁ =>
      simp only [Tree.grow, hmoves, hmoves']
      split
      · exact .ok moves (h₁.markExpanded slot moves)
      · exact .ok moves ((h₁.addPaths hs₁ ht₁ slot _).markExpanded slot moves)

end Twins

end Tree

end Game

end SearchLab
