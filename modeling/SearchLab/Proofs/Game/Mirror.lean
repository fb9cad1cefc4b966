import SearchLab.Proofs.Game.Twins

/-!
# Moves in the graph of a tree

A tree keeps the moves of a position twice: beside its node, and as the edges that leave it. `Mirrors` says that the two
agree, in their order and with their actions, and that the moves lead to the nodes whose ids they carry. Whatever the
game is like, the edges of its tree lead forwards only and nothing bars the way (`Plain`), so an edge is never walked
from its far end, not even where it leads back to its own node.

* `leaving_of_plain` — the edges that leave a node are those that were stored from there, in their order;
* `Mirrors.movesFromEdges` — the moves that are read from the graph are those that are kept;
* `Mirrors.setRoot`, `Mirrors.grow`, `Mirrors.settle`, `Mirrors.highlight` — whatever is done to a tree.
-/

namespace SearchLab

namespace Graph

open SearchLab.Game (Action)
open SearchLab.Game.Tree (actionOf)

/-! ## Graphs in which nothing bars the way -/

/-- All nodes let one pass, and all edges lead forwards only. -/
structure Plain (g : Graph) : Prop where
  passes : ∀ {s n}, g.node? s = some n → n.isTraversable = true
  forwards : ∀ e ∈ g.edgeList, e.bidirectional = false ∧ e.isForbidden = false ∧ e.isFlipped = false

/-- Where the stored edges from a node lead, and by which actions. -/
def outgoing (g : Graph) (slot : Nat) : List (Nat × Action) :=
  (g.edgeList.filter fun e => e.source = slot).map fun e => (e.target, actionOf e)

section

variable {g : Graph}

/-- A stored edge may be walked forwards, and not backwards. -/
theorem Plain.isTraversable (h : g.Plain) (hg : g.Arena) {e : Edge} (he : e ∈ g.edgeList) (reversed : Bool) :
    g.isTraversable ⟨e, reversed⟩ = !reversed := by
  obtain ⟨p, hp⟩ := mem_edgeList.mp he
  obtain ⟨a, ha⟩ := live_iff.mp (hg.ends hp).1
  obtain ⟨b, hb⟩ := live_iff.mp (hg.ends hp).2
  obtain ⟨hway, hforbidden, hflipped⟩ := h.forwards e he
  cases reversed <;>
    simp [Graph.isTraversable, EdgeView.source, EdgeView.target, ha, hb, h.passes ha, h.passes hb, hway, hforbidden,
      hflipped]

/-- **The edges that leave a node** are those that were stored from there, in their order. -/
theorem leaving_of_plain (h : g.Plain) (hg : g.Arena) (hindexed : g.Indexed) (slot : Nat) :
    g.leaving slot = (g.edgeList.filter fun e => e.source = slot).map fun e => ⟨e, false⟩ := by
  have hviews : ∀ e ∈ g.edgeList,
      (viewsFrom slot e).filter (fun v => false || g.isTraversable v) =
        if e.source = slot then [⟨e, false⟩] else [] := by
    intro e he
    have hforth := h.isTraversable hg he false
    have hback := h.isTraversable hg he true
    by_cases hsource : e.source = slot <;> by_cases htarget : e.target = slot <;>
      simp [viewsFrom, hsource, htarget, hforth, hback]
  rw [leaving_eq hg hindexed, passable, List.filter_flatMap, List.flatMap_congr hviews]
  induction g.edgeList with
  | nil => rfl
  | cons e rest ih => by_cases hsource : e.source = slot <;> simp [hsource, ih]

/-- Without a node there is no edge from it. -/
theorem outgoing_eq_nil (hg : g.Arena) {slot : Nat} (hnone : ¬ g.Live slot) : g.outgoing slot = [] := by
  rw [outgoing, List.map_eq_nil_iff, List.filter_eq_nil_iff]
  intro e he hsource
  obtain ⟨p, hp⟩ := mem_edgeList.mp he
  have hsource : e.source = slot := by simpa using hsource
  exact hnone (hsource ▸ (hg.ends hp).1)

/-- A node more makes no difference to the edges. -/
theorem plain_withNode (h : g.Plain) {id : String} {x y : Nat} {data : Bag}
    (hdata : data.bool? "traversable" ≠ some false) : (g.withNode id x y data).Plain where
  passes {s n} hn := by
    rw [node?_withNode] at hn
    split at hn
    · cases hn
      simpa [Node.isTraversable] using hdata
    · exact h.passes hn
  forwards := h.forwards

/-- A node may be changed in what does not bar the way. -/
theorem plain_modifyNode (h : g.Plain) (slot : Nat) {f : Node → Node}
    (hf : ∀ n, (f n).isTraversable = n.isTraversable) : (g.modifyNode slot f).Plain where
  passes {s n} hn := by
    rw [node?_modifyNode] at hn
    split at hn
    · obtain ⟨m, hm, rfl⟩ := Option.map_eq_some_iff.mp hn
      exact (hf m).trans (h.passes hm)
    · exact h.passes hn
  forwards := h.forwards

/-- A new edge comes behind all others. -/
theorem edgeList_withEdge (g : Graph) (source target : Nat) (bidirectional : Bool) (data : Bag) :
    (g.withEdge source target bidirectional data).edgeList =
      g.edgeList ++ [{ id := g.nextEdgeId, source, target, bidirectional, data }] := by
  simp [withEdge, edgeList]

/-- Neither the way that edges lead nor what they say of actions hangs on which of them are highlighted. -/
theorem SameUnlit.plain {h : Graph} (hgh : SameUnlit g h) (hplain : g.Plain) :
    h.Plain ∧ h.outgoing = g.outgoing := by
  constructor
  · refine ⟨fun hn => hplain.passes ((hgh.node? _).symm.trans hn), fun e he => ?_⟩
    have hdark : e.dark ∈ g.edgeList.map Edge.dark := hgh.edgeList ▸ List.mem_map_of_mem he
    obtain ⟨e', he', hsame⟩ := List.mem_map.mp hdark
    obtain ⟨hway, hforbidden, hflipped⟩ := hplain.forwards e' he'
    refine ⟨?_, ?_, ?_⟩
    · exact (congrArg Edge.bidirectional hsame).symm.trans hway
    · rw [← e.isForbidden_dark, ← hsame, e'.isForbidden_dark, hforbidden]
    · rw [← e.isFlipped_dark, ← hsame, e'.isFlipped_dark, hflipped]
  · have hall : ∀ (g : Graph) (slot : Nat), g.outgoing slot =
        ((g.edgeList.map Edge.dark).filter fun e => e.source = slot).map fun e => (e.target, actionOf e) := by
      intro g slot
      rw [List.filter_map, List.map_map, outgoing]
      exact List.map_congr_left fun e _ => by rw [Function.comp_apply, e.actionOf_dark]; rfl
    funext slot
    rw [hall, hgh.edgeList, ← hall]

end

end Graph

namespace Game

open SearchLab.Game.Tree (Grows Joins Opens SameMoves)

variable {π υ : Type}

namespace Tree

/-- A move as it is seen in the graph: where it leads, and by which action. -/
def drawn (m : Move) : Nat × Action := (m.slot, m.action)

/-- A move carries the id of the node that it leads to. -/
def Named (t : Tree π υ) (m : Move) : Prop := t.graph.slot? m.id = some m.slot

/-! ## What single edits do to the graph -/

/-- What becomes of the graph of a tree where some moves are added to a node. -/
structure Draws (source : Nat) (moves : List Move) (s t : Tree π υ) : Prop where
  plain : s.graph.Plain → t.graph.Plain
  outgoing : ∀ slot, t.graph.outgoing slot = s.graph.outgoing slot ++ if slot = source then moves.map drawn else []

namespace Draws

variable {source : Nat} {moves : List Move} {s t u : Tree π υ}

theorem trans {more : List Move} (h : Draws source moves s t) (h' : Draws source more t u) :
    Draws source (moves ++ more) s u where
  plain hs := h'.plain (h.plain hs)
  outgoing slot := by
    rw [h'.outgoing, h.outgoing]
    by_cases hslot : slot = source <;> simp [hslot]

/-- Nothing is drawn where the edges stay. -/
theorem of_edgeList (hplain : s.graph.Plain → t.graph.Plain) (hedges : t.graph.edgeList = s.graph.edgeList) :
    Draws source [] s t where
  plain := hplain
  outgoing slot := by simp [Graph.outgoing, hedges]

end Draws

theorem draws_raiseCount (source : Nat) (delta : UInt64) (t : Tree π υ) (slot : Nat) :
    Draws source [] t (raiseCount delta t slot) := by
  refine .of_edgeList (fun ht => Graph.plain_modifyNode ht slot fun n => ?_) rfl
  simp [Node.isTraversable, Bag.bool?, Bag.get?_set]

theorem draws_markExpanded (source : Nat) (t : Tree π υ) (slot : Nat) (moves : List Move) :
    Draws source [] t (t.markExpanded slot moves) := by
  have hmarked : t.graph.Plain → (t.markExpanded slot moves).graph.Plain := by
    intro ht
    refine Graph.plain_modifyNode ht slot fun n => ?_
    simp [Node.isTraversable, Bag.bool?, Bag.get?_set]
  exact .of_edgeList hmarked rfl

theorem edgeList_linked (t : Tree π υ) (source target : Nat) (action : Action) :
    (t.linked source target action).graph.edgeList = t.graph.edgeList ++
      [{ id := t.graph.nextEdgeId, source, target, bidirectional := false, data := [("action", .object action)] }] :=
  Graph.edgeList_withEdge t.graph source target false [("action", .object action)]

/-- The edge of a move is drawn behind those that leave its node already. -/
theorem draws_linked (source : Nat) (t : Tree π υ) (move : Move) :
    Draws source [move] t (t.linked source move.slot move.action) := by
  have hedges := edgeList_linked t source move.slot move.action
  constructor
  · intro ht
    refine ⟨ht.passes, fun e he => ?_⟩
    rw [hedges] at he
    rcases List.mem_append.mp he with he | he
    · exact ht.forwards e he
    · obtain rfl := List.mem_singleton.mp he
      exact ⟨rfl, rfl, rfl⟩
  · intro slot
    rw [Graph.outgoing, hedges, List.filter_append, List.map_append]
    by_cases hslot : slot = source
    · simp [hslot, Graph.outgoing, drawn, actionOf, Bag.get?, Json.lookup]
    · simp [hslot, Ne.symm hslot, Graph.outgoing]

variable [Position π υ]

/-- Moves are drawn in their order, and positions that join the tree draw nothing. -/
theorem composes_draws (source : Nat) : Composes source (Draws (π := π) (υ := υ) source) where
  refl _ := .of_edgeList id rfl
  trans := .trans
  pushed _ _ := .of_edgeList (fun ht => Graph.plain_withNode ht (by decide)) rfl
  linked t move := draws_linked source t move

/-- Expanding a position draws its moves. -/
theorem draws_grow {slot : Nat} {e : Entry π υ} {p : π} {branches : List (Action × π)} {moves : List Move}
    {t t' : Tree π υ} (h : t.InStep) (he : t.entry? slot = some e) (hgrow : grow slot p branches t = .ok moves t') :
    Draws slot moves t t' :=
  (composes_draws slot).grow (draws_raiseCount slot) (draws_markExpanded slot) h he hgrow

/-! ## Trees whose moves are mirrored -/

/-- The moves that are kept are those that the graph shows, and all moves lead to the nodes whose ids they carry. -/
structure Mirrors (t : Tree π υ) : Prop extends InStep t where
  plain : t.graph.Plain
  kept : ∀ {slot e}, t.entry? slot = some e → t.graph.outgoing slot = (e.moves.getD []).map drawn
  best : ∀ {slot e}, t.entry? slot = some e → ∀ m ∈ e.bestMoves, t.Named m

/-- A move that carries the id of its node goes on to do so while a tree grows. -/
theorem Named.grows {s t : Tree π υ} {m : Move} (hm : s.Named m) (hs : s.InStep) (ht : t.InStep) (h : Grows s t) :
    t.Named m := by
  obtain ⟨e, he, hid⟩ := (hs.lookup m.id m.slot).mp hm
  obtain ⟨e', he', hposition, _⟩ := h.stays he
  exact (ht.lookup m.id m.slot).mpr ⟨e', he', hposition ▸ hid⟩

/-- A slot without an entry has no node. -/
theorem InStep.not_live {t : Tree π υ} (h : t.InStep) {slot : Nat} (hnone : t.entry? slot = none) :
    ¬ t.graph.Live slot := by
  intro hlive
  obtain ⟨n, hn⟩ := Graph.live_iff.mp hlive
  obtain ⟨e, he, _⟩ := (h.lookup n.id slot).mp ((h.arena.lookup n.id slot).mpr ⟨n, hn, rfl⟩)
  rw [hnone] at he
  exact absurd he (by simp)

namespace Mirrors

variable {t t' : Tree π υ}

/-- **The moves that are read from the graph are those that are kept.** -/
theorem movesFromEdges (h : t.Mirrors) {slot : Nat} {e : Entry π υ} (he : t.entry? slot = some e) :
    t.movesFromEdges slot = e.moves.getD [] := by
  have hseen : t.movesFromEdges slot = (t.graph.outgoing slot).filterMap fun step =>
      (t.graph.idOf? step.1).map fun id => ⟨id, step.1, step.2⟩ := by
    rw [Tree.movesFromEdges, Graph.leaving_of_plain h.plain h.arena h.indexed, Graph.outgoing, List.filterMap_map,
      List.filterMap_map]
    rfl
  have hnamed : ∀ m ∈ e.moves.getD [], (t.graph.idOf? m.slot).map (fun id => (⟨id, m.slot, m.action⟩ : Move)) = some m := by
    intro m hm
    cases hmoves : e.moves with
    | none => simp [hmoves] at hm
    | some moves =>
        obtain ⟨n, hn, hid⟩ := (h.arena.lookup _ _).mp (h.targets he hmoves m (by simpa [hmoves] using hm))
        rw [Graph.idOf?, hn, Option.map_some, Option.map_some, hid]
  rw [hseen, h.kept he, List.filterMap_map]
  generalize e.moves.getD [] = moves at hnamed
  induction moves with
  | nil => rfl
  | cons m rest ih =>
      have hfirst := hnamed m List.mem_cons_self
      rw [List.filterMap_cons_some (b := m) (by exact hfirst), ih fun m' hm' => hnamed m' (List.mem_cons_of_mem m hm')]

/-- What joins a tree has no moves yet. -/
theorem joins {P : π → Prop} (h : t.Mirrors) (ht' : t'.InStep) (hjoins : Joins P t t') {source : Nat}
    (hdraws : Draws source [] t t') : t'.Mirrors where
  toInStep := ht'
  plain := hdraws.plain h.plain
  kept {slot e} he := by
    have hsame : t'.graph.outgoing slot = t.graph.outgoing slot := by simpa using hdraws.outgoing slot
    rw [hsame]
    cases hold : t.entry? slot with
    | none =>
        obtain ⟨p, _, rfl⟩ := hjoins.joined hold he
        exact Graph.outgoing_eq_nil h.arena (h.not_live hold)
    | some old =>
        obtain rfl := Option.some.inj ((hjoins.kept hold).symm.trans he)
        exact h.kept hold
  best {slot e} he m hm := by
    cases hold : t.entry? slot with
    | none =>
        obtain ⟨p, _, rfl⟩ := hjoins.joined hold he
        exact absurd hm List.not_mem_nil
    | some old =>
        obtain rfl := Option.some.inj ((hjoins.kept hold).symm.trans he)
        exact (h.best hold m hm).grows h.toInStep ht' hjoins.grows

/-- Expanding a position draws the moves that it keeps. -/
theorem grow (h : t.Mirrors) {slot : Nat} {e : Entry π υ} (he : t.entry? slot = some e) (hnone : e.moves = none) {p : π}
    {branches : List (Action × π)} {moves : List Move} (hgrow : Tree.grow slot p branches t = .ok moves t')
    (ht' : t'.InStep) (hopens : Opens slot branches moves t t') : t'.Mirrors where
  toInStep := ht'
  plain := (draws_grow h.toInStep he hgrow).plain h.plain
  kept {other e'} he' := by
    rw [(draws_grow h.toInStep he hgrow).outgoing]
    by_cases hother : other = slot
    · subst hother
      obtain rfl := Option.some.inj ((hopens.own he).symm.trans he')
      rw [h.kept he, hnone, if_pos rfl]
      rfl
    · rw [if_neg hother, List.append_nil]
      cases hold : t.entry? other with
      | none =>
          obtain ⟨b, _, rfl⟩ := hopens.joined hold he'
          exact Graph.outgoing_eq_nil h.arena (h.not_live hold)
      | some old =>
          obtain rfl := Option.some.inj ((hopens.others hother hold).symm.trans he')
          exact h.kept hold
  best {other e'} he' m hm := by
    have hgrows : Grows t t' := hopens.grows he hnone
    by_cases hother : other = slot
    · subst hother
      obtain rfl := Option.some.inj ((hopens.own he).symm.trans he')
      exact (h.best he m hm).grows h.toInStep ht' hgrows
    · cases hold : t.entry? other with
      | none =>
          obtain ⟨b, _, rfl⟩ := hopens.joined hold he'
          exact absurd hm List.not_mem_nil
      | some old =>
          obtain rfl := Option.some.inj ((hopens.others hother hold).symm.trans he')
          exact (h.best hold m hm).grows h.toInStep ht' hgrows

/-- The root is one of the slots, and which one does not matter. -/
theorem withRoot (h : t.Mirrors) (root : Nat) : { t with root }.Mirrors where
  arena := h.arena
  indexed := h.indexed
  freeForm := h.freeForm
  size := h.size
  lookup := h.lookup
  expanded := h.expanded
  targets := h.targets
  plain := h.plain
  kept := h.kept
  best := h.best

/-- A position that becomes the root finds its slot. -/
theorem setRoot (h : t.Mirrors) (p : π) :
    ∃ root tree, Tree.setRoot p t = .ok root tree ∧ tree.Mirrors ∧ Grows t tree := by
  obtain ⟨slot, isNew, tree, hensure, htree, _, hjoins⟩ := ensureNode_spec h.toInStep p
  have hmirrors := h.joins htree hjoins ((composes_draws slot).ensureNode h.toInStep hensure)
  refine ⟨slot, { tree with root := slot }, by simp [Tree.setRoot, hensure], hmirrors.withRoot slot, ⟨?_⟩⟩
  exact hjoins.grows.stays

/-- The moves that are kept beside the positions are those of the edges, as long as neither changes. -/
theorem kept_of_sameMoves (h : t.Mirrors) (hsame : SameMoves t t') (hgraph : t'.graph = t.graph) {slot : Nat}
    {e : Entry π υ} (he : t'.entry? slot = some e) : t'.graph.outgoing slot = (e.moves.getD []).map drawn := by
  obtain ⟨old, hold, _, hmoves⟩ := hsame.back.entry he
  rw [hgraph, h.kept hold, hmoves]

/-- A verdict is written down with moves that carry the ids of their nodes. -/
theorem settle (h : t.Mirrors) (v : Verdict υ) (hv : ∀ m ∈ v.bestMoves, t.Named m) : (t.settle v).Mirrors where
  toInStep := (settle_spec h.toInStep v).1
  plain := h.plain
  kept := h.kept_of_sameMoves (sameMoves_settle t v) rfl
  best {slot e} he m hm := by
    rw [entry?_settle] at he
    split at he
    · obtain ⟨old, _, rfl⟩ := Option.map_eq_some_iff.mp he
      exact hv m hm
    · exact h.best he m hm

theorem resetUtilities (h : t.Mirrors) : t.resetUtilities.Mirrors where
  toInStep := (resetUtilities_spec h.toInStep).1
  plain := h.plain
  kept := h.kept_of_sameMoves (resetUtilities_spec h.toInStep).2 rfl
  best {slot e} he m hm := by
    rw [entry?_resetUtilities] at he
    obtain ⟨old, _, rfl⟩ := Option.map_eq_some_iff.mp he
    exact absurd hm List.not_mem_nil

/-- Highlighting a line changes neither where edges lead nor what they say of actions. -/
theorem highlight (h : t.Mirrors) (slot : Nat) (line : List Move) :
    (t.highlight slot line).Mirrors ∧ ∀ m, t.Named m → (t.highlight slot line).Named m := by
  obtain ⟨hstep, hentries⟩ := highlight_spec h.toInStep slot line
  have hunlit := (Twins.highlight t slot line).graph
  obtain ⟨hplain, houtgoing⟩ := hunlit.plain h.plain
  have hnamed : ∀ m, t.Named m → (t.highlight slot line).Named m := fun m hm => (hunlit.slot? m.id).trans hm
  have hentry : ∀ s, entry? (t.highlight slot line) s = t.entry? s := fun s => by rw [ entry?, entry?, hentries]
  refine ⟨⟨hstep, hplain, ?_, ?_⟩, hnamed⟩
  · intro s e he
    rw [houtgoing]
    exact h.kept ((hentry s).symm.trans he)
  · intro s e he m hm
    exact hnamed m (h.best ((hentry s).symm.trans he) m hm)

theorem ofRoot (p : π) : (Tree.ofRoot p : Tree π υ).Mirrors := by
  have hempty : ({} : Tree π υ).Mirrors := by
    refine ⟨inStep_empty, ⟨by simp [Graph.empty, Graph.node?], by simp [Graph.empty, Graph.edgeList]⟩, ?_, ?_⟩
    · simp [ entry?]
    · simp [ entry?]
  obtain ⟨root, tree, hroot, hmirrors, _⟩ := hempty.setRoot p
  have hsame : (Tree.ofRoot p : Tree π υ) = tree := by
    unfold Tree.setRoot at hroot
    unfold Tree.ofRoot
    split at hroot
    · exact absurd hroot (by simp)
    · rename_i hensure
      simp only [EStateM.Result.ok.injEq] at hroot
      rw [hensure]
      exact hroot.2
  rwa [hsame]

end Mirrors

end Tree

end Game

end SearchLab
