import Mathlib.Data.Finset.Card
import Mathlib.Data.Finset.Range
import SearchLab.Game.Engine
import SearchLab.Proofs.Graph.Index

/-!
# Game trees in step

A tree keeps its positions twice: as nodes of a graph, and as entries at the same places. `InStep` says that the two
agree: an id leads to the entry whose position has it and to nothing else, a node is marked as expanded exactly when
the moves of its entry are kept, and a kept move leads to the node of its id.

* `Joins` — positions that were not there join a tree, and nothing else is changed;
* `Opens` — the moves of one position are kept as well;
* `grow_spec` — expanding a position never fails, and does no more than that;
* `Composes.grow` — what can be told of single edits can be told of all that is done where a position is expanded;
* `Grows` — what all of this has in common: positions stay where they are, and moves that are kept stay.
-/

namespace SearchLab.Game.Tree

open SearchLab.Graph (Mutated Mutation)

variable {π υ : Type}

/-! ## Entries -/

theorem entry?_modifyEntry (t : Tree π υ) (slot : Nat) (f : Entry π υ → Entry π υ) (s : Nat) :
    entry? (t.modifyEntry slot f) s = if slot = s then (t.entry? s).map f else t.entry? s := by
  by_cases h : slot = s <;> simp [modifyEntry, entry?, Array.getElem?_modify, h]

theorem size_modifyEntry (t : Tree π υ) (slot : Nat) (f : Entry π υ → Entry π υ) :
    (t.modifyEntry slot f).size = t.size := by
  simp [modifyEntry, size]

theorem entry?_isSome_iff {t : Tree π υ} {slot : Nat} : (t.entry? slot).isSome = true ↔ slot < t.size := by
  simp [ entry?, size]

theorem lt_size {t : Tree π υ} {slot : Nat} {e : Entry π υ} (h : t.entry? slot = some e) : slot < t.size :=
  entry?_isSome_iff.mp (by rw [h, Option.isSome_some])

/-- The mark of a node does not hang on its path count. -/
theorem isExpanded_raiseCount (delta : UInt64) (t : Tree π υ) (slot s : Nat) :
    (raiseCount delta t slot).isExpanded s = t.isExpanded s := by
  have hdata : ∀ (data : Bag) (count : Json), (data.set "pathCount" count).bool? "expanded" = data.bool? "expanded" := by
    intro data count
    simp [Bag.bool?, Bag.get?_set]
  rw [isExpanded, raiseCount, Graph.node?_modifyNode]
  split
  · cases hnode : t.graph.node? s with
    | none => simp [isExpanded, hnode]
    | some n => simp [isExpanded, hnode, hdata]
  · rfl

section

variable [Position π υ]

/-! ## The two halves of a tree -/

/-- The graph of a tree and its entries are in step. -/
structure InStep (t : Tree π υ) : Prop where
  arena : t.graph.Arena
  indexed : t.graph.Indexed
  freeForm : t.graph.isGrid = false
  size : t.graph.nodes.size = t.size
  lookup : ∀ id slot, t.graph.slot? id = some slot ↔ ∃ e, t.entry? slot = some e ∧ Position.id e.position = id
  expanded : ∀ {slot e}, t.entry? slot = some e → t.isExpanded slot = e.moves.isSome
  targets : ∀ {slot e moves}, t.entry? slot = some e → e.moves = some moves →
    ∀ m ∈ moves, t.graph.slot? m.id = some m.slot

namespace InStep

variable {t : Tree π υ}

/-- The id of a position leads to its slot. -/
theorem slot?_id (h : t.InStep) {slot : Nat} {e : Entry π υ} (he : t.entry? slot = some e) :
    t.graph.slot? (Position.id e.position) = some slot :=
  (h.lookup _ _).mpr ⟨e, he, rfl⟩

theorem live (h : t.InStep) {slot : Nat} {e : Entry π υ} (he : t.entry? slot = some e) : t.graph.Live slot :=
  h.arena.live_of_slot? (h.slot?_id he)

/-- Mutations that leave the nodes with their marks alone keep a tree in step. -/
theorem mutated (h : t.InStep) {g : Graph} (hg : Mutated t.graph g) (hsize : g.nodes.size = t.graph.nodes.size)
    (hslots : ∀ id, g.slot? id = t.graph.slot? id)
    (hexpanded : ∀ slot, { t with graph := g }.isExpanded slot = t.isExpanded slot) :
    { t with graph := g }.InStep where
  arena := hg.arena
  indexed := Graph.indexed_of_path h.indexed hg.path
  freeForm := hg.isGrid.trans h.freeForm
  size := hsize.trans h.size
  lookup id slot := by rw [hslots]; exact h.lookup id slot
  expanded he := (hexpanded _).trans (h.expanded he)
  targets he hmoves m hm := (hslots m.id).trans (h.targets he hmoves m hm)

/-- Changes of the edges keep a tree in step. -/
theorem same_nodes (h : t.InStep) {g : Graph} (hg : Mutated t.graph g) (hnodes : g.nodes = t.graph.nodes)
    (hslots : g.slots = t.graph.slots) : { t with graph := g }.InStep :=
  h.mutated hg (by rw [hnodes]) (fun id => by rw [Graph.slot?, Graph.slot?, hslots])
    fun slot => by rw [isExpanded, isExpanded, Graph.node?, Graph.node?, hnodes]

end InStep

/-! ## New positions -/

/-- Positions of a sort have joined a tree, and nothing else of what is known has changed. -/
structure Joins (P : π → Prop) (s t : Tree π υ) : Prop where
  kept : ∀ {slot e}, s.entry? slot = some e → t.entry? slot = some e
  joined : ∀ {slot e}, s.entry? slot = none → t.entry? slot = some e → ∃ p, P p ∧ e = { position := p }
  root : t.root = s.root

namespace Joins

variable {P : π → Prop} {s t u : Tree π υ}

omit [Position π υ] in
theorem refl (P : π → Prop) (t : Tree π υ) : Joins P t t where
  kept he := he
  joined hnone he := by simp [hnone] at he
  root := rfl

omit [Position π υ] in
theorem trans (h : Joins P s t) (h' : Joins P t u) : Joins P s u where
  kept he := h'.kept (h.kept he)
  joined {slot e} hnone he := by
    cases hmiddle : t.entry? slot with
    | none => exact h'.joined hmiddle he
    | some e' =>
        have hsame : e' = e := Option.some.inj ((h'.kept hmiddle).symm.trans he)
        exact hsame ▸ h.joined hnone hmiddle
  root := h'.root.trans h.root

omit [Position π υ] in
theorem weaken {Q : π → Prop} (h : Joins P s t) (hPQ : ∀ p, P p → Q p) : Joins Q s t where
  kept := h.kept
  joined hnone he := by
    obtain ⟨p, hp, hentry⟩ := h.joined hnone he
    exact ⟨p, hPQ p hp, hentry⟩
  root := h.root

/-- What leads to a node still does. -/
theorem slot? (h : Joins P s t) (hs : s.InStep) (ht : t.InStep) {id : String} {slot : Nat}
    (hslot : s.graph.slot? id = some slot) : t.graph.slot? id = some slot := by
  obtain ⟨e, he, hid⟩ := (hs.lookup id slot).mp hslot
  exact (ht.lookup id slot).mpr ⟨e, h.kept he, hid⟩

end Joins

/-- A tree with one position more, in the next slot. -/
def pushed (t : Tree π υ) (p : π) : Tree π υ :=
  { t with graph := t.graph.withNode (Position.id p) 0 0 newData, entries := t.entries.push { position := p } }

theorem entry?_pushed (t : Tree π υ) (p : π) (slot : Nat) :
    entry? (t.pushed p) slot = if slot = t.size then some { position := p } else t.entry? slot := by
  by_cases hs : slot = t.entries.size <;> simp [pushed, entry?, Array.getElem?_push, Tree.size, hs]

theorem joins_pushed (t : Tree π υ) (p : π) : Joins (· = p) t (t.pushed p) where
  kept he := by rw [entry?_pushed, if_neg (Nat.ne_of_lt (lt_size he)), he]
  joined hnone he := by
    rw [entry?_pushed] at he
    split at he
    · exact ⟨p, rfl, (Option.some.inj he).symm⟩
    · rw [hnone] at he
      cases he
  root := rfl

namespace InStep

variable {t : Tree π υ} (h : t.InStep)

include h

theorem node?_pushed (p : π) (slot : Nat) :
    (t.pushed p).graph.node? slot =
      if slot = t.size then some { slot := t.size, id := Position.id p, x := 0, y := 0, data := newData }
      else t.graph.node? slot := by
  rw [← h.size]
  exact Graph.node?_withNode t.graph (Position.id p) 0 0 newData slot

theorem slot?_pushed (p : π) (id : String) :
    (t.pushed p).graph.slot? id = if Position.id p = id then some t.size else t.graph.slot? id := by
  rw [← h.size]
  exact Graph.slot?_withNode t.graph (Position.id p) 0 0 newData id

/-- A tree goes on to be in step when a position joins it that has no slot. -/
theorem pushed {p : π} (hnew : t.graph.slot? (Position.id p) = none) : (t.pushed p).InStep := by
  have hmutation : Mutation t.graph (t.pushed p).graph := .addNode t.graph 0 0 newData hnew
  refine ⟨hmutation.arena h.arena, hmutation.indexed h.indexed, h.freeForm, ?_, ?_, ?_, ?_⟩
  · simp [Tree.pushed, Graph.withNode, h.size, Tree.size]
  · intro id slot
    rw [h.slot?_pushed, entry?_pushed]
    by_cases hid : Position.id p = id
    · by_cases hs : slot = t.size
      · simp [hid, hs]
      · have hold : ¬ ∃ e, t.entry? slot = some e ∧ Position.id e.position = id := by
          intro he
          have hfound := (h.lookup id slot).mpr he
          rw [← hid, hnew] at hfound
          exact absurd hfound (by simp)
        simp [hid, hs, Ne.symm hs, hold]
    · by_cases hs : slot = t.size
      · have hold : t.graph.slot? id ≠ some slot := by
          intro hfound
          obtain ⟨e, he, _⟩ := (h.lookup id slot).mp hfound
          exact absurd (lt_size he) (by omega)
        simp [hid, hs, hs ▸ hold]
      · simp [hid, hs, h.lookup]
  · intro slot e he
    rw [entry?_pushed] at he
    rw [isExpanded, h.node?_pushed]
    by_cases hs : slot = t.size
    · rw [if_pos hs] at he ⊢
      cases he
      rfl
    · rw [if_neg hs] at he ⊢
      exact h.expanded he
  · intro slot e moves he hmoves m hm
    rw [entry?_pushed] at he
    rw [h.slot?_pushed]
    by_cases hs : slot = t.size
    · rw [if_pos hs] at he
      cases he
      exact absurd hmoves (by simp)
    · rw [if_neg hs] at he
      have hold := h.targets he hmoves m hm
      have hid : Position.id p ≠ m.id := by
        intro hid
        rw [← hid, hnew] at hold
        exact absurd hold (by simp)
      rw [if_neg hid]
      exact hold

/-- A position without a slot gets the next one. -/
theorem ensureNode_of_none {p : π} (hnew : t.graph.slot? (Position.id p) = none) :
    ensureNode p t = .ok (t.size, true) (t.pushed p) := by
  have hadd : Graph.addNode (Position.id p) newData t.graph = .ok t.size (t.graph.withNode (Position.id p) 0 0 newData) :=
    Graph.addNode_ok_iff.mpr ⟨h.freeForm, hnew, h.size.symm, rfl⟩
  simp only [ensureNode, hnew, hadd, Tree.size, if_true]
  rfl

/-- **Finding the slot of a position** leaves the tree as it is, or the position joins it. -/
theorem of_ensureNode {p : π} {found : Nat × Bool} {t' : Tree π υ} (hensure : ensureNode p t = .ok found t') :
    t' = t ∨ t.graph.slot? (Position.id p) = none ∧ t' = t.pushed p := by
  cases hslot : t.graph.slot? (Position.id p) with
  | some slot =>
      simp only [ensureNode, hslot, EStateM.Result.ok.injEq] at hensure
      exact .inl hensure.2.symm
  | none =>
      rw [h.ensureNode_of_none hslot, EStateM.Result.ok.injEq] at hensure
      exact .inr ⟨rfl, hensure.2.symm⟩

end InStep

/-- A position finds its slot, as one that was there or as the only one that is new. -/
theorem ensureNode_spec {t : Tree π υ} (h : t.InStep) (p : π) :
    ∃ slot isNew t', ensureNode p t = .ok (slot, isNew) t' ∧ t'.InStep ∧
      t'.graph.slot? (Position.id p) = some slot ∧ Joins (· = p) t t' := by
  cases hslot : t.graph.slot? (Position.id p) with
  | some slot => exact ⟨slot, false, t, by simp [ensureNode, hslot], h, hslot, .refl _ t⟩
  | none =>
      exact ⟨t.size, true, t.pushed p, h.ensureNode_of_none hslot, h.pushed hslot,
        by rw [h.slot?_pushed, if_pos rfl], joins_pushed t p⟩

/-- A position becomes the root, as one that was there or as the only one that is new. -/
theorem setRoot_spec {t : Tree π υ} (h : t.InStep) (p : π) :
    ∃ root tree, setRoot p t = .ok root { tree with root } ∧ InStep { tree with root } ∧
      (∃ e, tree.entry? root = some e) ∧ Joins (· = p) t tree := by
  obtain ⟨slot, isNew, tree, hensure, htree, hslot, hjoins⟩ := ensureNode_spec h p
  obtain ⟨e, he, _⟩ := (htree.lookup _ _).mp hslot
  refine ⟨slot, tree, by simp only [setRoot, hensure], ?_, ⟨e, he⟩, hjoins⟩
  exact ⟨htree.arena, htree.indexed, htree.freeForm, htree.size, htree.lookup, htree.expanded, htree.targets⟩

/-! ## Moves -/

omit [Position π υ] in
/-- A tree with the edge of one move more, behind all others. -/
def linked (t : Tree π υ) (source target : Nat) (action : Action) : Tree π υ :=
  { t with graph := (t.graph.withEdge source target false [("action", .object action)]).restructured }

omit [Position π υ] in
/-- A move between two nodes can be added. -/
theorem link_of_live {t : Tree π υ} {source target : Nat} (hsource : t.graph.Live source) (htarget : t.graph.Live target)
    (action : Action) : link source target action t = .ok t.graph.nextEdgeId (t.linked source target action) := by
  simp only [link, Graph.addEdge_ok_iff.mpr ⟨hsource, htarget, rfl, rfl⟩]
  rfl

omit [Position π υ] in
/-- Where a move was added, its edge is all that is new. -/
theorem of_link {t t' : Tree π υ} {source target : Nat} {action : Action} {id : EdgeId}
    (hlink : link source target action t = .ok id t') : t' = t.linked source target action := by
  unfold link at hlink
  split at hlink
  · cases hlink
  · rename_i hadd
    cases hlink
    obtain ⟨-, -, -, rfl⟩ := Graph.addEdge_ok_iff.mp hadd
    rfl

theorem InStep.linked {t : Tree π υ} (h : t.InStep) {source target : Nat} (hsource : t.graph.Live source)
    (htarget : t.graph.Live target) (action : Action) : (t.linked source target action).InStep := by
  have hmutation := Mutation.addEdge t.graph false [("action", .object action)] hsource htarget
  exact h.same_nodes (Mutated.step ⟨h.arena, .refl⟩ hmutation) rfl rfl

/-- What a move says of the branch that it was made for. -/
def Follows (branch : Action × π) (move : Move) : Prop :=
  move.action = branch.1 ∧ move.id = Position.id branch.2

/-- A branch becomes a move to its position. -/
theorem addMove_spec {t : Tree π υ} (h : t.InStep) {source : Nat} {e : Entry π υ} (he : t.entry? source = some e)
    (branch : Action × π) :
    ∃ move t', addMove source branch t = .ok move t' ∧ t'.InStep ∧ Joins (· = branch.2) t t' ∧
      Follows branch move ∧ t'.graph.slot? move.id = some move.slot := by
  obtain ⟨target, isNew, t₁, hensure, h₁, hslot, hjoins⟩ := ensureNode_spec h branch.2
  obtain ⟨e', he', hid⟩ := (h₁.lookup _ _).mp hslot
  have hsource : t₁.graph.Live source := h₁.live (hjoins.kept he)
  have htarget : t₁.graph.Live target := h₁.live he'
  have hpositionId : (t₁.linked source target branch.1).positionId target = Position.id branch.2 := by
    have hentry : entry? (t₁.linked source target branch.1) target = some e' := he'
    simp [positionId, position?, hentry, hid]
  refine ⟨⟨(t₁.linked source target branch.1).positionId target, target, branch.1⟩, t₁.linked source target branch.1,
    by simp only [addMove, hensure, link_of_live hsource htarget], h₁.linked hsource htarget branch.1,
    ⟨hjoins.kept, hjoins.joined, hjoins.root⟩, ⟨rfl, hpositionId⟩, ?_⟩
  rw [hpositionId]
  exact hslot

/-- Branches become moves in their order. -/
theorem addMoves_spec {t : Tree π υ} (h : t.InStep) {source : Nat} {e : Entry π υ} (he : t.entry? source = some e)
    (branches : List (Action × π)) :
    ∃ moves t', addMoves source branches t = .ok moves t' ∧ t'.InStep ∧
      Joins (fun p => ∃ b ∈ branches, p = b.2) t t' ∧ List.Forall₂ Follows branches moves ∧
      ∀ m ∈ moves, t'.graph.slot? m.id = some m.slot := by
  induction branches generalizing t with
  | nil => exact ⟨[], t, rfl, h, .refl _ t, .nil, by simp⟩
  | cons branch rest ih =>
      obtain ⟨move, t₁, hmove, h₁, hjoins₁, hfollows, hslot⟩ := addMove_spec h he branch
      obtain ⟨moves, t₂, hmoves, h₂, hjoins₂, hall, hslots⟩ := ih h₁ (hjoins₁.kept he)
      refine ⟨move :: moves, t₂, by simp only [addMoves, hmove, hmoves], h₂, ?_, .cons hfollows hall, ?_⟩
      · refine (hjoins₁.weaken ?_).trans (hjoins₂.weaken ?_)
        · rintro p rfl
          exact ⟨branch, List.mem_cons_self, rfl⟩
        · rintro p ⟨b, hb, rfl⟩
          exact ⟨b, List.mem_cons_of_mem branch hb, rfl⟩
      · intro m hm
        rcases List.mem_cons.mp hm with rfl | hm
        · exact hjoins₂.slot? h₁ h₂ hslot
        · exact hslots m hm

/-! ## Path counts -/

theorem raiseCount_inStep {t : Tree π υ} (h : t.InStep) (delta : UInt64) (slot : Nat) :
    (raiseCount delta t slot).InStep := by
  have hmutation := Mutation.changeNode t.graph slot
    (f := fun n => { n with data := n.data.set "pathCount" (.nat (t.pathCount slot + delta).toNat) })
    fun n => ⟨rfl, rfl, rfl, rfl⟩
  refine h.mutated (Mutated.step ⟨h.arena, .refl⟩ hmutation) (by simp [Graph.modifyNode]) (fun _ => rfl) ?_
  exact isExpanded_raiseCount delta t slot

/-- Path counts are a matter of the graph alone. -/
theorem addPaths_spec {t : Tree π υ} (h : t.InStep) (slot : Nat) (delta : UInt64) :
    (t.addPaths slot delta).InStep ∧ (t.addPaths slot delta).entries = t.entries ∧
      (t.addPaths slot delta).root = t.root ∧ (t.addPaths slot delta).graph.slots = t.graph.slots := by
  rw [addPaths]
  generalize t.graph.ancestors slot = slots
  induction slots generalizing t with
  | nil => exact ⟨h, rfl, rfl, rfl⟩
  | cons s rest ih => exact ih (raiseCount_inStep h delta s)

/-! ## Expanding a position -/

/-- The position in a slot was expanded to some branches: its moves are kept, and positions behind them may have joined
the tree. -/
structure Opens (slot : Nat) (branches : List (Action × π)) (moves : List Move) (s t : Tree π υ) : Prop where
  own : ∀ {e}, s.entry? slot = some e → t.entry? slot = some { e with moves := some moves }
  others : ∀ {other e}, other ≠ slot → s.entry? other = some e → t.entry? other = some e
  joined : ∀ {other e}, s.entry? other = none → t.entry? other = some e → ∃ b ∈ branches, e = { position := b.2 }
  follows : List.Forall₂ Follows branches moves
  root : t.root = s.root

theorem markExpanded_spec {t : Tree π υ} (h : t.InStep) {slot : Nat} {e : Entry π υ} (he : t.entry? slot = some e)
    {moves : List Move} (htargets : ∀ m ∈ moves, t.graph.slot? m.id = some m.slot) :
    (t.markExpanded slot moves).InStep ∧
      ∀ s, entry? (t.markExpanded slot moves) s =
        if slot = s then (t.entry? s).map fun e => { e with moves := some moves } else t.entry? s := by
  have hentry : ∀ s, entry? (t.markExpanded slot moves) s =
      if slot = s then (t.entry? s).map fun e => { e with moves := some moves } else t.entry? s :=
    fun s => entry?_modifyEntry _ slot _ s
  have hmutation := Mutation.changeNode t.graph slot
    (f := fun n => { n with data := n.data.set "expanded" (.bool true) }) fun n => ⟨rfl, rfl, rfl, rfl⟩
  refine ⟨⟨hmutation.arena h.arena, hmutation.indexed h.indexed, h.freeForm, ?_, ?_, ?_, ?_⟩, hentry⟩
  · have hsize : (t.markExpanded slot moves).size = t.size := size_modifyEntry _ slot _
    have hnodes : (t.markExpanded slot moves).graph.nodes.size = t.graph.nodes.size := by
      simp [markExpanded, keepMoves, modifyEntry, Graph.modifyNode]
    rw [hsize, hnodes, h.size]
  · intro id s
    have hslots : (t.markExpanded slot moves).graph.slot? id = t.graph.slot? id := rfl
    rw [hslots, h.lookup, hentry]
    by_cases hs : slot = s
    · cases t.entry? s <;> simp [hs]
    · simp [hs]
  · intro s e' he'
    have hnode : (t.markExpanded slot moves).isExpanded s = if slot = s then true else t.isExpanded s := by
      have hgraph : (t.markExpanded slot moves).graph =
          t.graph.modifyNode slot fun n => { n with data := n.data.set "expanded" (.bool true) } := rfl
      rw [isExpanded, hgraph, Graph.node?_modifyNode]
      by_cases hs : slot = s
      · obtain ⟨n, hn⟩ := Graph.live_iff.mp (h.live he)
        simp [← hs, hn, Bag.bool?, Bag.get?_set, Json.bool?]
      · simp [hs, isExpanded]
    rw [hentry] at he'
    rw [hnode]
    by_cases hs : slot = s
    · obtain ⟨e₁, _, rfl⟩ := Option.map_eq_some_iff.mp ((if_pos hs).symm.trans he')
      simp [hs]
    · rw [if_neg hs] at he' ⊢
      exact h.expanded he'
  · intro s e' moves' he' hmoves' m hm
    have hslots : (t.markExpanded slot moves).graph.slot? m.id = t.graph.slot? m.id := rfl
    rw [hslots]
    rw [hentry] at he'
    by_cases hs : slot = s
    · obtain ⟨e₁, _, rfl⟩ := Option.map_eq_some_iff.mp ((if_pos hs).symm.trans he')
      cases hmoves'
      exact htargets m hm
    · rw [if_neg hs] at he'
      exact h.targets he' hmoves' m hm

/-- **Expanding a position of a tree in step succeeds.** Its moves follow its branches, the positions behind them join
the tree, and nothing else of what is known changes. -/
theorem grow_spec {t : Tree π υ} (h : t.InStep) {slot : Nat} {e : Entry π υ} (he : t.entry? slot = some e) (p : π)
    (branches : List (Action × π)) :
    ∃ moves t', grow slot p branches t = .ok moves t' ∧ t'.InStep ∧ Opens slot branches moves t t' := by
  obtain ⟨moves, t₁, hmoves, h₁, hjoins, hfollows, htargets⟩ := addMoves_spec h he branches
  -- The counts are raised before the node is marked, and only where there is something to add.
  have hcounted : ∃ t₂ : Tree π υ, grow slot p branches t = .ok moves (t₂.markExpanded slot moves) ∧ t₂.InStep ∧
      t₂.entries = t₁.entries ∧ t₂.root = t₁.root ∧ t₂.graph.slots = t₁.graph.slots := by
    by_cases hdelta : gain p moves.length = 0
    · exact ⟨t₁, by simp only [grow, hmoves, hdelta, if_true], h₁, rfl, rfl, rfl⟩
    · have hpaths := addPaths_spec h₁ slot (gain p moves.length).toUInt64
      exact ⟨_, by simp only [grow, hmoves, hdelta, if_false], hpaths⟩
  obtain ⟨t₂, hgrow, h₂, hentries, hroot, hslots⟩ := hcounted
  have hsame : ∀ s, t₂.entry? s = t₁.entry? s := fun s => by rw [ entry?, entry?, hentries]
  have hown : t₂.entry? slot = some e := (hsame slot).trans (hjoins.kept he)
  have htargets₂ : ∀ m ∈ moves, t₂.graph.slot? m.id = some m.slot := by
    intro m hm
    rw [Graph.slot?, hslots]
    exact htargets m hm
  obtain ⟨h₃, hentry⟩ := markExpanded_spec h₂ hown htargets₂
  refine ⟨moves, _, hgrow, h₃, ⟨?_, ?_, ?_, hfollows, hroot.trans hjoins.root⟩⟩
  · intro e' he'
    rw [hentry, if_pos rfl, hsame, hjoins.kept he', Option.map_some]
  · intro other e' hne he'
    rw [hentry, if_neg (Ne.symm hne), hsame, hjoins.kept he']
  · intro other e' hnone he'
    have hne : slot ≠ other := by
      rintro rfl
      rw [he] at hnone
      exact absurd hnone (by simp)
    rw [hentry, if_neg hne, hsame] at he'
    obtain ⟨p, ⟨b, hb, rfl⟩, hfresh⟩ := hjoins.joined hnone he'
    exact ⟨b, hb, hfresh⟩

/-- Where a move of the expanded position leads to a position that was not in the tree, that is the one of its branch. -/
theorem Opens.entry_of_new {s t : Tree π υ} {slot : Nat} {entry : Entry π υ}
    {branches : List (Action × π)} {moves : List Move} (h : Opens slot branches moves s t) (hs : s.InStep) (ht : t.InStep)
    (hentry : s.entry? slot = some entry) {m : Move} (hm : m ∈ moves) (hnew : s.graph.slot? m.id = none) :
    ∃ b ∈ branches, t.entry? m.slot = some { position := b.2 } ∧ Position.id b.2 = m.id := by
  obtain ⟨e, he, hid⟩ := (ht.lookup _ _).mp (ht.targets (h.own hentry) rfl m hm)
  cases hold : s.entry? m.slot with
  | some e' =>
      have hsame : e'.position = e.position := by
        by_cases hslot : m.slot = slot
        · rw [hslot] at hold he
          have hopened := congrArg Entry.position (Option.some.inj ((h.own hold).symm.trans he))
          exact hopened
        · exact congrArg Entry.position (Option.some.inj ((h.others hslot hold).symm.trans he))
      have hfound := hs.slot?_id hold
      rw [hsame, hid, hnew] at hfound
      cases hfound
  | none =>
      obtain ⟨b, hb, rfl⟩ := h.joined hold he
      exact ⟨b, hb, he, hid⟩

/-! ## One edit after the other -/

/-- The two edits by which a move is added. -/
theorem of_addMove {t t' : Tree π υ} {source : Nat} {branch : Action × π} {move : Move}
    (hmove : addMove source branch t = .ok move t') :
    ∃ isNew t₁, ensureNode branch.2 t = .ok (move.slot, isNew) t₁ ∧ t' = t₁.linked source move.slot move.action := by
  unfold addMove at hmove
  split at hmove
  · cases hmove
  · rename_i target isNew t₁ hensure
    split at hmove
    · cases hmove
    · rename_i hlink
      cases hmove
      exact ⟨isNew, t₁, hensure, of_link hlink⟩

/-- A relation between a tree, some moves that are added to a node, and the tree that comes of it, which can be told of
one edit after the other. -/
structure Composes (source : Nat) (R : List Move → Tree π υ → Tree π υ → Prop) : Prop where
  refl : ∀ t, R [] t t
  trans : ∀ {moves more s t u}, R moves s t → R more t u → R (moves ++ more) s u
  pushed : ∀ {t p}, t.InStep → t.graph.slot? (Position.id p) = none → R [] t (t.pushed p)
  linked : ∀ t (move : Move), R [move] t (t.linked source move.slot move.action)

namespace Composes

variable {source : Nat} {R : List Move → Tree π υ → Tree π υ → Prop} (hR : Composes source R)

include hR

theorem ensureNode {t t' : Tree π υ} {p : π} {found : Nat × Bool} (h : t.InStep)
    (hensure : Tree.ensureNode p t = .ok found t') : R [] t t' := by
  obtain rfl | ⟨hnew, rfl⟩ := h.of_ensureNode hensure
  · exact hR.refl t'
  · exact hR.pushed h hnew

theorem addMoves {t t' : Tree π υ} {e : Entry π υ} (branches : List (Action × π)) {moves : List Move} (h : t.InStep)
    (he : t.entry? source = some e) (hmoves : Tree.addMoves source branches t = .ok moves t') : R moves t t' := by
  induction branches generalizing t moves with
  | nil =>
      cases hmoves
      exact hR.refl _
  | cons branch rest ih =>
      obtain ⟨move, t₁, hmove, h₁, hjoins, _⟩ := addMove_spec h he branch
      obtain ⟨later, t₂, hlater, _⟩ := addMoves_spec h₁ (hjoins.kept he) rest
      simp only [Tree.addMoves, hmove, hlater, EStateM.Result.ok.injEq] at hmoves
      obtain ⟨rfl, rfl⟩ := hmoves
      have hrest := ih h₁ (hjoins.kept he) hlater
      -- The first move is its position, in case it joins the tree, and then its edge.
      obtain ⟨isNew, t₀, hensure, rfl⟩ := of_addMove hmove
      exact hR.trans (hR.trans (hR.ensureNode h hensure) (hR.linked t₀ move)) hrest

/-- Where a position is expanded, the path counts are raised behind its moves, and its node is marked at the end. -/
theorem grow {t t' : Tree π υ} {e : Entry π υ} {p : π} {branches : List (Action × π)} {moves : List Move}
    (hraised : ∀ delta t slot, R [] t (raiseCount delta t slot))
    (hmarked : ∀ t slot moves, R [] t (t.markExpanded slot moves)) (h : t.InStep) (he : t.entry? source = some e)
    (hgrow : Tree.grow source p branches t = .ok moves t') : R moves t t' := by
  have hcounted : ∀ t slot delta, R [] t (t.addPaths slot delta) := by
    intro t slot delta
    rw [addPaths]
    generalize t.graph.ancestors slot = slots
    induction slots generalizing t with
    | nil => exact hR.refl t
    | cons first rest ih => exact hR.trans (hraised delta t first) (ih _)
  obtain ⟨moves₁, t₁, hmoves, _⟩ := addMoves_spec h he branches
  have hadded : R moves₁ t t₁ := hR.addMoves branches h he hmoves
  simp only [Tree.grow, hmoves, EStateM.Result.ok.injEq] at hgrow
  obtain ⟨rfl, rfl⟩ := hgrow
  have hgained : R [] t₁ (if gain p moves₁.length = 0 then t₁ else t₁.addPaths source (gain p moves₁.length).toUInt64) := by
    split
    · exact hR.refl t₁
    · exact hcounted t₁ source _
  have hall := hR.trans (hR.trans hadded hgained) (hmarked _ source moves₁)
  rwa [List.append_nil, List.append_nil] at hall

end Composes

/-! ## Trees that grow -/

/-- The tree without positions is in step. -/
theorem inStep_empty : ({} : Tree π υ).InStep where
  arena := Graph.Arena.empty none
  indexed := by
    intro index hindex slot
    cases hindex
    rfl
  freeForm := rfl
  size := rfl
  lookup := by simp [Graph.slot?, Graph.empty, entry?]
  expanded := by simp [ entry?]
  targets := by simp [ entry?]

/-- The tree of one position holds it, and nothing else. -/
theorem ofRoot_spec (p : π) :
    (ofRoot p : Tree π υ).InStep ∧ entry? (ofRoot p : Tree π υ) (ofRoot p : Tree π υ).root = some { position := p } ∧
      ∀ {slot e}, entry? (ofRoot p : Tree π υ) slot = some e → e = { position := p } := by
  obtain ⟨slot, isNew, t, hensure, ht, hslot, hjoins⟩ := ensureNode_spec (inStep_empty : ({} : Tree π υ).InStep) p
  have hroot : (ofRoot p : Tree π υ) = { t with root := slot } := by simp [ofRoot, hensure]
  have hall : ∀ {s e}, t.entry? s = some e → e = { position := p } := by
    intro s e he
    obtain ⟨_, rfl, hentry⟩ := hjoins.joined (by simp [ entry?]) he
    exact hentry
  obtain ⟨e, he, _⟩ := (ht.lookup _ _).mp hslot
  rw [hroot]
  exact ⟨⟨ht.arena, ht.indexed, ht.freeForm, ht.size, ht.lookup, ht.expanded, ht.targets⟩, hall he ▸ he, hall⟩

/-! ## Expanded positions -/

omit [Position π υ] in
/-- The slots of the positions that are expanded. -/
def expandedSlots (t : Tree π υ) : Finset Nat := {slot ∈ Finset.range t.size | t.isExpanded slot}

theorem InStep.mem_expandedSlots {t : Tree π υ} (h : t.InStep) {slot : Nat} :
    slot ∈ t.expandedSlots ↔ ∃ e, t.entry? slot = some e ∧ e.moves.isSome = true := by
  rw [expandedSlots, Finset.mem_filter, Finset.mem_range, ← entry?_isSome_iff]
  constructor
  · rintro ⟨hlive, hmark⟩
    obtain ⟨e, he⟩ := Option.isSome_iff_exists.mp hlive
    exact ⟨e, he, (h.expanded he).symm.trans hmark⟩
  · rintro ⟨e, he, hmoves⟩
    exact ⟨by rw [he, Option.isSome_some], (h.expanded he).trans hmoves⟩

/-- Positions that join a tree are not expanded. -/
theorem Joins.expandedSlots {P : π → Prop} {s t : Tree π υ} (h : Joins P s t) (hs : s.InStep) (ht : t.InStep) :
    t.expandedSlots = s.expandedSlots := by
  ext slot
  rw [ht.mem_expandedSlots, hs.mem_expandedSlots]
  constructor
  · rintro ⟨e, he, hmoves⟩
    cases hold : s.entry? slot with
    | none =>
        obtain ⟨p, _, rfl⟩ := h.joined hold he
        cases hmoves
    | some e' =>
        cases he.symm.trans (h.kept hold)
        exact ⟨e, rfl, hmoves⟩
  · rintro ⟨e, he, hmoves⟩
    exact ⟨e, h.kept he, hmoves⟩

/-- Expanding a position adds it to those that are expanded, and no other. -/
theorem Opens.expandedSlots {slot : Nat} {branches : List (Action × π)} {moves : List Move} {s t : Tree π υ}
    (h : Opens slot branches moves s t) (hs : s.InStep) (ht : t.InStep) {e : Entry π υ}
    (he : s.entry? slot = some e) : t.expandedSlots = insert slot s.expandedSlots := by
  ext other
  rw [Finset.mem_insert, ht.mem_expandedSlots, hs.mem_expandedSlots]
  by_cases hother : other = slot
  · subst hother
    exact ⟨fun _ => .inl rfl, fun _ => ⟨_, h.own he, rfl⟩⟩
  · constructor
    · rintro ⟨e', he', hmoves⟩
      cases hold : s.entry? other with
      | none =>
          obtain ⟨b, _, rfl⟩ := h.joined hold he'
          cases hmoves
      | some e₁ =>
          cases he'.symm.trans (h.others hother hold)
          exact .inr ⟨e', rfl, hmoves⟩
    · rintro (rfl | ⟨e', he', hmoves⟩)
      · exact absurd rfl hother
      · exact ⟨e', h.others hother he', hmoves⟩

theorem Opens.card_expandedSlots {slot : Nat} {branches : List (Action × π)} {moves : List Move} {s t : Tree π υ}
    (h : Opens slot branches moves s t) (hs : s.InStep) (ht : t.InStep) {e : Entry π υ}
    (he : s.entry? slot = some e) (hnone : e.moves = none) : t.expandedSlots.card = s.expandedSlots.card + 1 := by
  have hnew : slot ∉ s.expandedSlots := by
    rw [hs.mem_expandedSlots]
    rintro ⟨e', he', hmoves⟩
    cases he.symm.trans he'
    simp [hnone] at hmoves
  rw [h.expandedSlots hs ht he, Finset.card_insert_of_notMem hnew]

end

/-- Every position has stayed in its slot, with the moves that were kept. -/
structure Grows (s t : Tree π υ) : Prop where
  stays : ∀ {slot e}, s.entry? slot = some e →
    ∃ e', t.entry? slot = some e' ∧ e'.position = e.position ∧ ∀ moves, e.moves = some moves → e'.moves = some moves

namespace Grows

variable {s t u : Tree π υ}

theorem refl (t : Tree π υ) : Grows t t where
  stays {_ e} he := ⟨e, he, rfl, fun _ hmoves => hmoves⟩

theorem trans (h : Grows s t) (h' : Grows t u) : Grows s u where
  stays he := by
    obtain ⟨e₁, he₁, hposition₁, hmoves₁⟩ := h.stays he
    obtain ⟨e₂, he₂, hposition₂, hmoves₂⟩ := h'.stays he₁
    exact ⟨e₂, he₂, hposition₂.trans hposition₁, fun moves hmoves => hmoves₂ moves (hmoves₁ moves hmoves)⟩

end Grows

theorem Joins.grows {P : π → Prop} {s t : Tree π υ} (h : Joins P s t) : Grows s t where
  stays {_ e} he := ⟨e, h.kept he, rfl, fun _ hmoves => hmoves⟩

theorem Opens.grows [Position π υ] {slot : Nat} {branches : List (Action × π)} {moves : List Move} {s t : Tree π υ}
    (h : Opens slot branches moves s t) {e : Entry π υ} (he : s.entry? slot = some e) (hnone : e.moves = none) :
    Grows s t where
  stays {other e'} he' := by
    by_cases hother : other = slot
    · subst hother
      obtain rfl : e' = e := Option.some.inj (he'.symm.trans he)
      exact ⟨_, h.own he, rfl, by simp [hnone]⟩
    · exact ⟨e', h.others hother he', rfl, fun _ hmoves => hmoves⟩

end SearchLab.Game.Tree
