import SearchLab.Proofs.Game.Engine
import SearchLab.Proofs.Game.Mirror
import SearchLab.Proofs.Graph.Reach

/-!
# Path counts

When a position is expanded to several moves, the counts of all nodes above it are raised, and each of them once. Which
nodes these are is read off the edges of the graph, and the edges are the moves that are kept (`Mirrors`). So a count
is raised exactly where kept moves lead on to the position that is expanded: `Above`.

* `pathCount_grow` — what becomes of all path counts when a position is expanded;
* `Unfolded` — a tree that came about by expanding positions one after the other;
* `runAll_unfolded` — whatever is asked of an engine about the nodes of its tree, this is what it does.
-/

namespace SearchLab

open Relation (ReflTransGen)

theorem Json.nat?_nat (n : Nat) : (Json.nat n).nat? = some n := by
  simp [Json.nat, Json.nat?]

namespace Graph

/-- A node is among those that the edges from another lead to when an edge is stored between the two. -/
theorem exists_mem_outgoing {g : Graph} {a b : Nat} :
    (∃ action, (b, action) ∈ g.outgoing a) ↔ ∃ e ∈ g.edgeList, e.source = a ∧ e.target = b := by
  simp only [outgoing, List.mem_map, List.mem_filter, Prod.mk.injEq, decide_eq_true_eq]
  constructor
  · rintro ⟨_, e, ⟨he, hsource⟩, htarget, _⟩
    exact ⟨e, he, hsource, htarget⟩
  · rintro ⟨e, he, hsource, htarget⟩
    exact ⟨_, e, ⟨he, hsource⟩, htarget, rfl⟩

/-- Where nothing bars the way, one node comes before another when an edge is stored between them. -/
theorem Plain.precedes_iff {g : Graph} (h : g.Plain) (hg : g.Arena) (hindexed : g.Indexed) {a b : Nat} :
    g.reindex.Precedes a b ↔ ∃ action, (b, action) ∈ g.outgoing a := by
  have hplain : g.reindex.Plain := ⟨h.passes, h.forwards⟩
  have hg : g.reindex.Arena := (Mutation.reindex g).arena hg
  have hindexed : g.reindex.Indexed := (Mutation.reindex g).indexed hindexed
  rw [show g.outgoing a = g.reindex.outgoing a from rfl, exists_mem_outgoing]
  constructor
  · rintro ⟨⟨e, reversed⟩, hv, hsource⟩
    obtain ⟨he, htarget, hpass⟩ := (mem_arriving hg hindexed).mp hv
    rw [hplain.isTraversable hg he] at hpass
    obtain rfl : reversed = false := by simpa using hpass
    exact ⟨e, he, hsource, htarget⟩
  · rintro ⟨e, he, hsource, htarget⟩
    refine ⟨⟨e, false⟩, (mem_arriving hg hindexed).mpr ⟨he, htarget, .inr ?_⟩, hsource⟩
    rw [hplain.isTraversable hg he]
    rfl

end Graph

namespace Game

variable {π υ : Type}

namespace Tree

/-! ## Counts and single edits -/

theorem pathCount_raiseCount (delta : UInt64) (t : Tree π υ) {slot s : Nat} (hlive : t.graph.Live s) :
    (raiseCount delta t slot).pathCount s = t.pathCount s + if slot = s then delta else 0 := by
  obtain ⟨n, hn⟩ := Graph.live_iff.mp hlive
  rw [pathCount, raiseCount, Graph.node?_modifyNode]
  by_cases hs : slot = s
  · subst hs
    simp [hn, Bag.get?_set, Json.nat?_nat, -UInt64.toNat_add]
  · simp [hs, pathCount]

theorem live_raiseCount (delta : UInt64) (t : Tree π υ) (slot s : Nat) :
    (raiseCount delta t slot).graph.Live s ↔ t.graph.Live s := by
  rw [Graph.Live, raiseCount, Graph.node?_modifyNode]
  split
  · rw [Option.isSome_map]
    rfl
  · rfl

/-- The counts of the ancestors are raised, and each of them once. -/
theorem pathCount_addPaths {t : Tree π υ} (h : t.graph.Arena) (slot : Nat) (delta : UInt64) {s : Nat}
    (hlive : t.graph.Live s) :
    (t.addPaths slot delta).pathCount s = t.pathCount s + if s ∈ t.graph.ancestors slot then delta else 0 := by
  have hnodup := Graph.nodup_ancestors h slot
  rw [addPaths]
  clear h
  generalize t.graph.ancestors slot = slots at hnodup
  induction slots generalizing t with
  | nil => simp
  | cons first rest ih =>
      obtain ⟨hfirst, hrest⟩ := List.nodup_cons.mp hnodup
      rw [List.foldl_cons, ih ((live_raiseCount delta t first s).mpr hlive) hrest, pathCount_raiseCount delta t hlive]
      by_cases hs : first = s
      · subst hs
        simp [hfirst]
      · simp [hs, Ne.symm hs]

theorem pathCount_markExpanded (t : Tree π υ) (slot : Nat) (moves : List Move) (s : Nat) :
    (t.markExpanded slot moves).pathCount s = t.pathCount s := by
  have hgraph : (t.markExpanded slot moves).graph =
      t.graph.modifyNode slot fun n => { n with data := n.data.set "expanded" (.bool true) } := rfl
  rw [pathCount, hgraph, Graph.node?_modifyNode, pathCount]
  split
  · cases hnode : t.graph.node? s with
    | none => rfl
    | some n => simp [Bag.get?_set]
  · rfl

/-- Nodes that were there keep their counts, and new ones start with one line of play. -/
structure Starts (s t : Tree π υ) : Prop where
  old : ∀ {slot e}, s.entry? slot = some e → (t.entry? slot).isSome = true ∧ t.pathCount slot = s.pathCount slot
  new : ∀ {slot e}, s.entry? slot = none → t.entry? slot = some e → t.pathCount slot = 1

theorem Starts.refl (t : Tree π υ) : Starts t t where
  old he := ⟨by rw [he, Option.isSome_some], rfl⟩
  new hnone he := by simp [hnone] at he

theorem Starts.trans {s t u : Tree π υ} (h : Starts s t) (h' : Starts t u) : Starts s u where
  old he := by
    obtain ⟨hsome, hcount⟩ := h.old he
    obtain ⟨e', he'⟩ := Option.isSome_iff_exists.mp hsome
    obtain ⟨hsome', hcount'⟩ := h'.old he'
    exact ⟨hsome', hcount'.trans hcount⟩
  new {slot e} hnone he := by
    cases hmiddle : t.entry? slot with
    | none => exact h'.new hmiddle he
    | some e' => exact (h'.old hmiddle).2.trans (h.new hnone hmiddle)

section

variable [Position π υ]

theorem starts_pushed {t : Tree π υ} (h : t.InStep) (p : π) : Starts t (t.pushed p) where
  old {slot e} he := by
    have hne : slot ≠ t.size := Nat.ne_of_lt (lt_size he)
    rw [entry?_pushed, if_neg hne, he, pathCount, h.node?_pushed, if_neg hne]
    exact ⟨rfl, rfl⟩
  new {slot e} hnone he := by
    have hslot : slot = t.size := by
      by_contra hne
      rw [entry?_pushed, if_neg hne, hnone] at he
      cases he
    rw [pathCount, h.node?_pushed, if_pos hslot]
    rfl

/-- Adding moves changes no count. -/
theorem composes_starts (source : Nat) : Composes source fun _ => Starts (π := π) (υ := υ) where
  refl := .refl
  trans := .trans
  pushed {_ p} h _ := starts_pushed h p
  linked _ _ := ⟨fun he => ⟨Option.isSome_iff_exists.mpr ⟨_, he⟩, rfl⟩, fun hnone he => by cases hnone.symm.trans he⟩

end

/-! ## Above and below -/

/-- A move that is kept leads from one node to another. -/
def Onward (t : Tree π υ) (a b : Nat) : Prop := ∃ e, t.entry? a = some e ∧ ∃ m ∈ e.moves.getD [], m.slot = b

/-- A node stands above another, or is the same: kept moves lead from it to the other one. -/
def Above (t : Tree π υ) : Nat → Nat → Prop := ReflTransGen t.Onward

variable [Position π υ]

/-- Where a move that is kept leads, there is a node. -/
theorem InStep.entry_of_onward {t : Tree π υ} (h : t.InStep) {a b : Nat} (hab : t.Onward a b) :
    ∃ e, t.entry? b = some e := by
  obtain ⟨e, he, m, hm, rfl⟩ := hab
  cases hmoves : e.moves with
  | none => simp [hmoves] at hm
  | some moves =>
      obtain ⟨e', he', _⟩ := (h.lookup _ _).mp (h.targets he hmoves m (by simpa [hmoves] using hm))
      exact ⟨e', he'⟩

theorem InStep.entry_of_above {t : Tree π υ} (h : t.InStep) {a b : Nat} {e : Entry π υ} (he : t.entry? a = some e)
    (hab : t.Above a b) : ∃ e', t.entry? b = some e' := by
  rcases ReflTransGen.cases_tail hab with rfl | ⟨_, _, hstep⟩
  · exact ⟨e, he⟩
  · exact h.entry_of_onward hstep

/-- An edge is drawn where a move is kept. -/
theorem Mirrors.onward_iff {t : Tree π υ} (h : t.Mirrors) {a b : Nat} :
    t.Onward a b ↔ ∃ action, (b, action) ∈ t.graph.outgoing a := by
  cases he : t.entry? a with
  | none => simp [Onward, he, Graph.outgoing_eq_nil h.arena (h.not_live he)]
  | some e =>
      rw [h.kept he]
      simp only [Onward, he, Option.some.injEq, exists_eq_left', List.mem_map, drawn, Prod.mk.injEq]
      constructor
      · rintro ⟨m, hm, hslot⟩
        exact ⟨m.action, m, hm, hslot, rfl⟩
      · rintro ⟨_, m, hm, hslot, _⟩
        exact ⟨m, hm, hslot⟩

/-- The edges that are drawn from a node do not lead to it from anywhere else. -/
theorem Draws.above_iff {t t' : Tree π υ} (h : t.Mirrors) (ht' : t'.InStep) {slot : Nat} {moves : List Move}
    (hdraws : Draws slot moves t t') {s : Nat} :
    ReflTransGen t'.graph.reindex.Precedes s slot ↔ t.Above s slot := by
  have hedge : ∀ {a b}, t'.graph.reindex.Precedes a b ↔
      ∃ action, (b, action) ∈ t.graph.outgoing a ++ if a = slot then moves.map drawn else [] := by
    intro a b
    rw [(hdraws.plain h.plain).precedes_iff ht'.arena ht'.indexed, hdraws.outgoing]
  constructor
  · intro hpath
    induction hpath using ReflTransGen.head_induction_on with
    | refl => exact .refl
    | @head a b hstep _ ih =>
        by_cases ha : a = slot
        · exact ha ▸ .refl
        · rw [hedge, if_neg ha, List.append_nil] at hstep
          exact .head (h.onward_iff.mpr hstep) ih
  · refine ReflTransGen.mono (fun a b hab => ?_) _ _
    obtain ⟨action, hmem⟩ := h.onward_iff.mp hab
    exact hedge.mpr ⟨action, List.mem_append_left _ hmem⟩

/-- **What becomes of the path counts** when a position is expanded: a new node starts with one line of play, and the
nodes above the position show as many lines more as there are moves beside the first. -/
theorem pathCount_grow {t t' : Tree π υ} (h : t.Mirrors) {slot : Nat} {e : Entry π υ} (he : t.entry? slot = some e) {p : π}
    {branches : List (Action × π)} {moves : List Move} (hgrow : grow slot p branches t = .ok moves t') :
    (∀ {s e'}, t.entry? s = some e' →
      (t.Above s slot → t'.pathCount s = t.pathCount s + (gain p moves.length).toUInt64) ∧
        (¬ t.Above s slot → t'.pathCount s = t.pathCount s)) ∧
    ∀ {s e'}, t.entry? s = none → t'.entry? s = some e' → t'.pathCount s = 1 := by
  obtain ⟨moves₁, t₁, hmoves, h₁, hjoins, _⟩ := addMoves_spec h.toInStep he branches
  have hdraws := (composes_draws slot).addMoves branches h.toInStep he hmoves
  have hstarts := (composes_starts slot).addMoves branches h.toInStep he hmoves
  simp only [grow, hmoves, EStateM.Result.ok.injEq] at hgrow
  obtain ⟨rfl, rfl⟩ := hgrow
  have hraised : ∀ {s e₁}, t₁.entry? s = some e₁ →
      (if gain p moves₁.length = 0 then t₁ else t₁.addPaths slot (gain p moves₁.length).toUInt64).pathCount s =
        t₁.pathCount s + if s ∈ t₁.graph.ancestors slot then (gain p moves₁.length).toUInt64 else 0 := by
    intro s e₁ he₁
    by_cases hgain : gain p moves₁.length = 0
    · simp [hgain]
    · rw [if_neg hgain, pathCount_addPaths h₁.arena slot _ (h₁.live he₁)]
  have hsize : (markExpanded (if gain p moves₁.length = 0 then t₁ else
      t₁.addPaths slot (gain p moves₁.length).toUInt64) slot moves₁).size = t₁.size := by
    rw [markExpanded, keepMoves, size_modifyEntry]
    split
    · rfl
    · rw [Tree.size, Tree.size, (addPaths_spec h₁ slot _).2.1]
  have habove : ∀ {s}, s ∈ t₁.graph.ancestors slot ↔ t.Above s slot := fun {s} =>
    (Graph.mem_ancestors h₁.arena h₁.indexed).trans (hdraws.above_iff h h₁)
  constructor
  · intro s e' hs
    obtain ⟨e₁, he₁⟩ := Option.isSome_iff_exists.mp (hstarts.old hs).1
    rw [pathCount_markExpanded, hraised he₁, (hstarts.old hs).2]
    exact ⟨fun hyes => by rw [if_pos (habove.mpr hyes)],
      fun hno => by rw [if_neg fun hyes => hno (habove.mp hyes), UInt64.add_zero]⟩
  · intro s e' hnone hs
    have hne : s ≠ slot := by
      rintro rfl
      rw [he] at hnone
      cases hnone
    have hfar : ¬ t.Above s slot := by
      intro hyes
      rcases ReflTransGen.cases_head hyes with rfl | ⟨_, ⟨_, hentry, _⟩, _⟩
      · exact hne rfl
      · rw [hnone] at hentry
        cases hentry
    obtain ⟨e₁, he₁⟩ : ∃ e₁, t₁.entry? s = some e₁ := by
      rw [← Option.isSome_iff_exists, entry?_isSome_iff, ← hsize]
      exact lt_size hs
    rw [pathCount_markExpanded, hraised he₁, hstarts.new hnone he₁, if_neg fun hyes => hfar (habove.mp hyes),
      UInt64.add_zero]

/-! ## One position after the other -/

/-- What was found where a position was expanded: its id, the ids that its moves lead to, and by how many lines of play
the tree shows more. -/
structure Opening where
  id : String
  targets : List String
  gain : Nat

/-- What is found where a position is expanded to some moves. -/
def Opening.of (p : π) (moves : List Move) : Opening :=
  ⟨Position.id p, moves.map Move.id, Tree.gain p moves.length⟩

omit [Position π υ] in
/-- Moves carry the ids of the positions that their branches lead to. -/
theorem ids_of_follows [Position π υ] {branches : List (Action × π)} {moves : List Move}
    (h : List.Forall₂ (Follows (υ := υ)) branches moves) :
    moves.map Move.id = branches.map fun b => Position.id (υ := υ) b.2 := by
  induction h with
  | nil => rfl
  | cons hfirst _ ih => rw [List.map_cons, List.map_cons, ih, hfirst.2]

/-- The position in a slot was expanded to the branches that the rules give. -/
structure Unfolds (rules : Rules π) (slot : Nat) (e : Entry π υ) (branches : List (Action × π)) (moves : List Move)
    (s t : Tree π υ) : Prop extends Opens slot branches moves s t where
  entry : s.entry? slot = some e
  closed : e.moves = none
  given : rules.branches e.position = .ok branches
  grown : grow slot e.position branches s = .ok moves t
  inStep : t.InStep

/-- A tree has come from another by expanding positions one after the other; what was found comes last one first. -/
inductive Unfolded (rules : Rules π) (start : Tree π υ) : List Opening → Tree π υ → Prop
  | start : Unfolded rules start [] start
  | step {opened : List Opening} {s t : Tree π υ} {slot : Nat} {e : Entry π υ} {branches : List (Action × π)}
      {moves : List Move} (h : Unfolded rules start opened s) (hstep : Unfolds rules slot e branches moves s t) :
      Unfolded rules start (Opening.of e.position moves :: opened) t

namespace Unfolds

variable {rules : Rules π} {slot : Nat} {e : Entry π υ} {branches : List (Action × π)} {moves : List Move} {s t : Tree π υ}
  (h : Unfolds rules slot e branches moves s t)

include h

theorem mirrors (hs : s.Mirrors) : t.Mirrors := hs.grow h.entry h.closed h.grown h.inStep h.toOpens

theorem obeys {G : Set π} (hwithin : rules.Within G) (hs : s.Obeys rules G) : t.Obeys rules G :=
  hs.opens hwithin h.toOpens h.entry h.given

/-- The moves that are kept once a position is expanded. -/
theorem onward_iff {a b : Nat} : t.Onward a b ↔ s.Onward a b ∨ a = slot ∧ b ∈ moves.map Move.slot := by
  by_cases ha : a = slot
  · subst ha
    simp [Onward, h.entry, h.closed, h.own h.entry]
  · cases hold : s.entry? a with
    | some e' => simp [Onward, hold, h.others ha hold, ha]
    | none =>
        have hnew : ¬ t.Onward a b := by
          rintro ⟨e', he', m, hm, _⟩
          obtain ⟨_, _, rfl⟩ := h.joined hold he'
          exact absurd hm List.not_mem_nil
        have hold : ¬ s.Onward a b := by
          rintro ⟨e', he', _⟩
          rw [hold] at he'
          cases he'
        simp [hnew, hold, ha]

/-- Where a move of the expanded position leads, there is a node. -/
theorem entry_of_mem {child : Nat} (hchild : child ∈ moves.map Move.slot) : ∃ e', t.entry? child = some e' :=
  h.inStep.entry_of_onward (h.onward_iff.mpr (.inr ⟨rfl, hchild⟩))

/-- A new node is one that a move of the expanded position leads to. -/
theorem mem_of_joined {child : Nat} {e' : Entry π υ} (hnone : s.entry? child = none) (hsome : t.entry? child = some e') :
    child ∈ moves.map Move.slot := by
  obtain ⟨b, hb, rfl⟩ := h.joined hnone hsome
  obtain ⟨m, hm, _, hid⟩ := exists_match h.follows hb
  have htarget := h.inStep.targets (h.own h.entry) rfl m hm
  rw [hid, h.inStep.slot?_id hsome] at htarget
  exact Option.some.inj htarget ▸ List.mem_map_of_mem hm

end Unfolds

/-- What holds of the moves and the positions goes on to hold while positions are expanded. -/
theorem Unfolded.mirrors_obeys {rules : Rules π} {G : Set π} (hwithin : rules.Within G) {start t : Tree π υ}
    {opened : List Opening} (h : Unfolded rules start opened t) (hstart : start.Mirrors) (hobeys : start.Obeys rules G) :
    t.Mirrors ∧ t.Obeys rules G := by
  induction h with
  | start => exact ⟨hstart, hobeys⟩
  | step _ hstep ih => exact ⟨hstep.mirrors ih.1, hstep.obeys hwithin ih.2⟩

/-- The root stays where it is, with its position. -/
theorem Unfolded.root_grows {rules : Rules π} {start t : Tree π υ} {opened : List Opening}
    (h : Unfolded rules start opened t) : t.root = start.root ∧ Grows start t := by
  induction h with
  | start => exact ⟨rfl, .refl start⟩
  | step _ hstep ih => exact ⟨hstep.root.trans ih.1, ih.2.trans (hstep.toOpens.grows hstep.entry hstep.closed)⟩

/-- The first position starts with one line of play. -/
theorem pathCount_ofRoot {p : π} {slot : Nat} {e : Entry π υ} (he : entry? (ofRoot p : Tree π υ) slot = some e) :
    (ofRoot p : Tree π υ).pathCount slot = 1 ∧ slot = (ofRoot p : Tree π υ).root := by
  obtain ⟨hstep, hroot, hall⟩ := ofRoot_spec (υ := υ) p
  obtain ⟨found, isNew, t, hensure, _⟩ := ensureNode_spec (inStep_empty : ({} : Tree π υ).InStep) p
  have hmade : (ofRoot p : Tree π υ) = { t with root := found } := by simp [ofRoot, hensure]
  have hkept : t.entry? slot = some e := by
    rw [hmade] at he
    exact he
  have hnone : entry? ({} : Tree π υ) slot = none := by simp [ entry?]
  have hcount : t.pathCount slot = 1 := ((composes_starts found).ensureNode inStep_empty hensure).new hnone hkept
  refine ⟨by rw [hmade]; exact hcount, ?_⟩
  have hslot := hstep.slot?_id he
  rw [hall he] at hslot
  exact Option.some.inj (hslot.symm.trans (hstep.slot?_id hroot))

end Tree

namespace Engine

open SearchLab.Game.Tree (Opening Opens Unfolded Unfolds)

variable [Position π υ]

/-- A call that expands a node of the tree, by rules that say what some rules say or else fail, or sets the budget. -/
def Call.OnNodes (rules : Rules π) : Call π → Prop
  | .expand _ _ => False
  | .expandNode rules' _ => rules'.Falters rules
  | .setBudget _ => True

/-- What a call on a node has found, if it has expanded the position there. -/
def Call.opening? (e : Engine π υ) : Call π → Option Opening
  | .expandNode rules slot =>
    if e.tree.isExpanded slot then none
    else
      (((Engine.expandNode rules slot).after e).tree.entry? slot).bind fun entry =>
        entry.moves.map (Opening.of entry.position)
  | _ => none

/-- What some calls on nodes have found, the last one first. -/
def openings : List (Call π) → Engine π υ → List Opening
  | [], _ => []
  | call :: calls, e => openings calls (call.run e) ++ (call.opening? e).toList

/-- A call on a node expands the position there, or it leaves the tree as it is. -/
theorem Call.unfolded {rules : Rules π} {call : Call π} (hcall : call.OnNodes rules) {e : Engine π υ}
    (h : e.tree.InStep) {start : Tree π υ} {opened : List Opening} (hopened : Unfolded rules start opened e.tree) :
    Unfolded rules start ((call.opening? e).toList ++ opened) (call.run e).tree := by
  cases call with
  | expand rules' p => exact absurd hcall id
  | setBudget budget => exact hopened
  | expandNode rules' slot =>
      have houtcome := expandNode_outcome rules' slot h
      have hunchanged : ∀ {e' : Engine π υ}, (Engine.expandNode rules' slot).after e = e' → e'.tree = e.tree →
          (∀ entry, e.tree.entry? slot = some entry → e.tree.isExpanded slot = false → entry.moves = none) →
          Unfolded rules start (((Call.expandNode rules' slot).opening? e).toList ++ opened)
            ((Call.expandNode rules' slot).run e).tree := by
        intro e' hafter htree hclosed
        have hnone : (Call.expandNode rules' slot).opening? e = none := by
          cases hmark : e.tree.isExpanded slot with
          | true => simp [Call.opening?, hmark]
          | false =>
              cases hentry : e.tree.entry? slot with
              | none => simp [Call.opening?, hmark, hafter, htree, hentry]
              | some entry => simp [Call.opening?, hmark, hafter, htree, hentry, hclosed entry hentry hmark]
        rw [hnone, Call.run, hafter, htree]
        exact hopened
      have hclosed : ∀ entry, e.tree.entry? slot = some entry → e.tree.isExpanded slot = false → entry.moves = none := by
        intro entry hentry hmark
        rw [h.expanded hentry] at hmark
        simpa using hmark
      have hafter := after_eq_engine (Engine.expandNode rules' slot) e
      generalize Engine.expandNode rules' slot e = r at houtcome hafter
      cases houtcome with
      | missing => exact hunchanged hafter rfl hclosed
      | kept => exact hunchanged hafter rfl hclosed
      | refused => exact hunchanged hafter rfl hclosed
      | failed => exact hunchanged hafter rfl hclosed
      | @opened entry left branches moves tree hentry hmoves hspend hbranches hgrow htree hopens =>
          have hsame : rules.branches entry.position = .ok branches := by
            rcases hcall.branches entry.position with heq | ⟨err, hfails⟩
            · rw [← heq, hbranches]
            · rw [hfails] at hbranches
              cases hbranches
          have hmark : e.tree.isExpanded slot = false := by rw [h.expanded hentry, hmoves, Option.isSome_none]
          have hfound : (Call.expandNode rules' slot).opening? e = some (Opening.of entry.position moves) := by
            simp [Call.opening?, hmark, hafter, Outcome.engine, hopens.own hentry]
          rw [hfound, Call.run, hafter]
          exact .step hopened ⟨hopens, hentry, hmoves, hsame, hgrow, htree⟩

/-- As long as there is budget, a position that is not expanded can be. -/
theorem expandNode_unfolds {rules : Rules π} {slot : Nat} {e : Engine π υ} {entry : Entry π υ}
    {branches : List (Action × π)} (h : e.tree.InStep) (hentry : e.tree.entry? slot = some entry)
    (hclosed : entry.moves = none) (hbranches : rules.branches entry.position = .ok branches) {left : Budget}
    (hspend : e.expansions.spend? = some left) :
    ∃ moves, Unfolds rules slot entry branches moves e.tree ((Call.expandNode rules slot).run e).tree ∧
      ((Call.expandNode rules slot).run e).expansions = left ∧
      (Call.expandNode rules slot).opening? e = some (Opening.of entry.position moves) := by
  have houtcome := expandNode_outcome rules slot h
  have hafter := after_eq_engine (Engine.expandNode rules slot) e
  have hmark : e.tree.isExpanded slot = false := by rw [h.expanded hentry, hclosed, Option.isSome_none]
  rw [Call.run]
  generalize Engine.expandNode rules slot e = r at houtcome hafter
  cases houtcome with
  | missing hnone => simp [hentry] at hnone
  | kept hentry' hmoves => simp [Option.some.inj (hentry'.symm.trans hentry), hclosed] at hmoves
  | refused _ _ hspent => simp [hspend] at hspent
  | failed hentry' _ _ hfails => simp [Option.some.inj (hentry'.symm.trans hentry), hbranches] at hfails
  | @opened entry' left' branches' moves tree hentry' hmoves hspend' hbranches' hgrow htree hopens =>
      obtain rfl := Option.some.inj (hentry'.symm.trans hentry)
      obtain rfl := Except.ok.inj (hbranches'.symm.trans hbranches)
      obtain rfl := Option.some.inj (hspend'.symm.trans hspend)
      refine ⟨moves, ?_, ?_, ?_⟩
      · rw [hafter]
        exact ⟨hopens, hentry, hclosed, hbranches, hgrow, htree⟩
      · rw [hafter]
        rfl
      · simp [Call.opening?, hmark, hafter, Outcome.engine, hopens.own hentry]

/-- **Calls on nodes expand positions one after the other**, and do nothing else to the tree. -/
theorem runAll_unfolded {rules : Rules π} {calls : List (Call π)} (hcalls : ∀ call ∈ calls, call.OnNodes rules)
    {e : Engine π υ} (h : e.tree.InStep) {start : Tree π υ} {opened : List Opening}
    (hopened : Unfolded rules start opened e.tree) :
    Unfolded rules start (openings calls e ++ opened) (runAll calls e).tree := by
  induction calls generalizing e opened with
  | nil => exact hopened
  | cons call rest ih =>
      have hrest := ih (fun c hc => hcalls c (List.mem_cons_of_mem call hc)) (call.inStep_grows h).1
        (call.unfolded (hcalls call List.mem_cons_self) h hopened)
      rw [openings, List.append_assoc]
      exact hrest

/-- Calls on the nodes of a game that was not looked into yet. -/
theorem unfolded_of_fresh {rules : Rules π} {fresh : Engine π υ} (hfresh : ofRules rules = .ok fresh)
    {calls : List (Call π)} (hcalls : ∀ call ∈ calls, call.OnNodes rules) :
    ∃ p, rules.initial = .ok p ∧ Unfolded rules (Tree.ofRoot p) (openings calls fresh) (runAll calls fresh).tree := by
  obtain ⟨p, hp, rfl⟩ := ofRules_spec hfresh
  have hunfolded := runAll_unfolded hcalls (e := { tree := Tree.ofRoot p }) (Tree.ofRoot_spec p).1 .start
  rw [List.append_nil] at hunfolded
  exact ⟨p, hp, hunfolded⟩

end Engine

end Game

end SearchLab
