import Mathlib.Logic.Relation
import SearchLab.Game.Evaluation
import SearchLab.Proofs.Game.Rules
import SearchLab.Proofs.Game.Tree

/-!
# Trees that follow the rules

A tree obeys the rules of a game when its positions belong to the game and the moves that are kept are the branches that
the rules give. What a search writes into a tree apart from that, the worth of positions and the edges that are
highlighted, has no bearing on it: `SameMoves`.

* `Obeys.joins`, `Obeys.opens` — a tree obeys the rules while it grows;
* `Obeys.acyclic` — a game without cycles has trees without cycles;
* `settle_spec`, `resetUtilities_spec`, `highlight_spec` — what a search writes into a tree.
-/

namespace SearchLab.Game

open SearchLab.Graph (Mutated)

variable {π υ : Type}

/-- The moves by which a game can go on from a position: there are none where the game ends, and none at the frontier. -/
def Entry.replies [Position π υ] (e : Entry π υ) : List Move :=
  if Position.isTerminal e.position then [] else e.moves.getD []

namespace Tree

/-! ## Trees with the same moves -/

/-- The positions of a tree are found in another, with the same moves. -/
structure Retains (s t : Tree π υ) : Prop where
  entry : ∀ {slot e}, s.entry? slot = some e →
    ∃ e', t.entry? slot = some e' ∧ e'.position = e.position ∧ e'.moves = e.moves

/-- Two trees have the same positions with the same moves. -/
structure SameMoves (s t : Tree π υ) : Prop where
  there : Retains s t
  back : Retains t s

namespace Retains

variable {s t u : Tree π υ}

theorem refl (t : Tree π υ) : Retains t t where
  entry he := ⟨_, he, rfl, rfl⟩

theorem trans (h : Retains s t) (h' : Retains t u) : Retains s u where
  entry he := by
    obtain ⟨e₁, he₁, hposition₁, hmoves₁⟩ := h.entry he
    obtain ⟨e₂, he₂, hposition₂, hmoves₂⟩ := h'.entry he₁
    exact ⟨e₂, he₂, hposition₂.trans hposition₁, hmoves₂.trans hmoves₁⟩

theorem of_joins {P : π → Prop} (h : Joins P s t) : Retains s t where
  entry he := ⟨_, h.kept he, rfl, rfl⟩

/-- Which position is the root does not matter. -/
theorem withRoot (h : Retains s t) (root : Nat) : Retains s { t with root } := ⟨h.entry⟩

end Retains

namespace SameMoves

variable {s t u : Tree π υ}

theorem of_entries (h : t.entries = s.entries) : SameMoves s t := by
  have hentry : ∀ slot, t.entry? slot = s.entry? slot := fun slot => by rw [ entry?, entry?, h]
  exact ⟨⟨fun he => ⟨_, (hentry _).trans he, rfl, rfl⟩⟩, ⟨fun he => ⟨_, (hentry _).symm.trans he, rfl, rfl⟩⟩⟩

/-- Each entry was changed at most in what is known beside its position and its moves. -/
theorem of_map {f : Nat → Entry π υ → Entry π υ} (h : ∀ slot, t.entry? slot = (s.entry? slot).map (f slot))
    (hf : ∀ slot e, (f slot e).position = e.position ∧ (f slot e).moves = e.moves) : SameMoves s t where
  there := ⟨fun {slot e} he => ⟨f slot e, by rw [h, he, Option.map_some], hf slot e⟩⟩
  back := ⟨fun {slot e} he => by
    obtain ⟨e', he', rfl⟩ := Option.map_eq_some_iff.mp ((h slot).symm.trans he)
    exact ⟨e', he', (hf slot e').1.symm, (hf slot e').2.symm⟩⟩

variable [Position π υ]

/-- What is known beside the positions and their moves does not bear on whether a tree is in step. -/
theorem inStep (h : SameMoves s t) (hs : s.InStep) (hgraph : t.graph = s.graph) (hsize : t.size = s.size) : t.InStep where
  arena := hgraph ▸ hs.arena
  indexed := hgraph ▸ hs.indexed
  freeForm := hgraph ▸ hs.freeForm
  size := by rw [hgraph, hsize, hs.size]
  lookup id slot := by
    rw [hgraph, hs.lookup]
    constructor
    · rintro ⟨e, he, hid⟩
      obtain ⟨e', he', hposition, _⟩ := h.there.entry he
      exact ⟨e', he', hposition ▸ hid⟩
    · rintro ⟨e, he, hid⟩
      obtain ⟨e', he', hposition, _⟩ := h.back.entry he
      exact ⟨e', he', hposition ▸ hid⟩
  expanded {slot e} he := by
    obtain ⟨e', he', _, hmoves⟩ := h.back.entry he
    rw [isExpanded, hgraph, ← hmoves]
    exact hs.expanded he'
  targets {slot e moves} he hmoves m hm := by
    obtain ⟨e', he', _, hsame⟩ := h.back.entry he
    rw [hgraph]
    exact hs.targets he' (hsame.trans hmoves) m hm

end SameMoves

section

variable [Position π υ]

/-! ## The rules -/

/-- A tree has positions of a game only, and its moves are those that the rules give. -/
structure Obeys (rules : Rules π) (G : Set π) (t : Tree π υ) : Prop where
  position : ∀ {slot e}, t.entry? slot = some e → e.position ∈ G
  moves : ∀ {slot e moves}, t.entry? slot = some e → e.moves = some moves →
    ∃ branches, rules.branches e.position = .ok branches ∧ List.Forall₂ Follows branches moves

namespace Obeys

variable {rules : Rules π} {G : Set π} {s t : Tree π υ}

/-- What is known beside the moves does not matter. -/
theorem sameMoves (h : s.Obeys rules G) (hsame : SameMoves s t) : t.Obeys rules G where
  position he := by
    obtain ⟨e', he', hposition, _⟩ := hsame.back.entry he
    exact hposition ▸ h.position he'
  moves he hmoves := by
    obtain ⟨e', he', hposition, hmoves'⟩ := hsame.back.entry he
    exact hposition ▸ h.moves he' (hmoves'.trans hmoves)

theorem withRoot (h : s.Obeys rules G) (root : Nat) : Obeys rules G { s with root } := ⟨h.position, h.moves⟩

theorem joins {P : π → Prop} (h : s.Obeys rules G) (hjoins : Joins P s t) (hP : ∀ p, P p → p ∈ G) : t.Obeys rules G where
  position {slot e} he := by
    cases hold : s.entry? slot with
    | none =>
        obtain ⟨p, hp, rfl⟩ := hjoins.joined hold he
        exact hP p hp
    | some e' =>
        obtain rfl := Option.some.inj (he.symm.trans (hjoins.kept hold))
        exact h.position hold
  moves {slot e moves} he hmoves := by
    cases hold : s.entry? slot with
    | none =>
        obtain ⟨p, _, rfl⟩ := hjoins.joined hold he
        cases hmoves
    | some e' =>
        obtain rfl := Option.some.inj (he.symm.trans (hjoins.kept hold))
        exact h.moves hold hmoves

theorem opens {slot : Nat} {branches : List (Action × π)} {moves : List Move} (h : s.Obeys rules G)
    (hwithin : rules.Within G) (hopens : Opens slot branches moves s t) {e : Entry π υ} (he : s.entry? slot = some e)
    (hbranches : rules.branches e.position = .ok branches) : t.Obeys rules G where
  position {other e'} he' := by
    by_cases hother : other = slot
    · subst hother
      obtain rfl := Option.some.inj (he'.symm.trans (hopens.own he))
      exact (h.position he : e.position ∈ G)
    · cases hold : s.entry? other with
      | none =>
          obtain ⟨b, hb, rfl⟩ := hopens.joined hold he'
          exact hwithin.branches (h.position he) hbranches b hb
      | some e₁ =>
          obtain rfl := Option.some.inj (he'.symm.trans (hopens.others hother hold))
          exact h.position hold
  moves {other e' moves'} he' hmoves' := by
    by_cases hother : other = slot
    · subst hother
      obtain rfl := Option.some.inj (he'.symm.trans (hopens.own he))
      obtain rfl := Option.some.inj hmoves'
      exact ⟨branches, hbranches, hopens.follows⟩
    · cases hold : s.entry? other with
      | none =>
          obtain ⟨b, _, rfl⟩ := hopens.joined hold he'
          cases hmoves'
      | some e₁ =>
          obtain rfl := Option.some.inj (he'.symm.trans (hopens.others hother hold))
          exact h.moves hold hmoves'

/-- The tree of the first position of a game obeys its rules. -/
theorem ofRoot {p : π} (hp : p ∈ G) : (Tree.ofRoot p : Tree π υ).Obeys rules G where
  position he := by
    rw [(ofRoot_spec p).2.2 he]
    exact hp
  moves he hmoves := by
    rw [(ofRoot_spec p).2.2 he] at hmoves
    cases hmoves

end Obeys

/-! ## Lines of play -/

/-- A reply leads from one slot to another. -/
def Reply (t : Tree π υ) (a b : Nat) : Prop :=
  ∃ e, t.entry? a = some e ∧ ∃ m ∈ e.replies, m.slot = b

/-- No line of replies leads back to where it started. -/
def Acyclic (t : Tree π υ) : Prop :=
  ∀ slot, ¬ Relation.TransGen t.Reply slot slot

omit [Position π υ] in
/-- Where the members of two lists match, each member of the first has its match in the second. -/
theorem exists_match {α β : Type} {R : α → β → Prop} {xs : List α} {ys : List β} (h : List.Forall₂ R xs ys) {x : α}
    (hx : x ∈ xs) : ∃ y ∈ ys, R x y := by
  induction h with
  | nil => cases hx
  | @cons x' y xs ys hmatch _ ih =>
      rcases List.mem_cons.mp hx with rfl | hx
      · exact ⟨y, List.mem_cons_self, hmatch⟩
      · obtain ⟨y', hy', hmatch'⟩ := ih hx
        exact ⟨y', List.mem_cons_of_mem y hy', hmatch'⟩

theorem positionId_eq {t : Tree π υ} {slot : Nat} {e : Entry π υ} (he : t.entry? slot = some e) :
    t.positionId slot = Position.id e.position := by
  simp [positionId, position?, he]

namespace Obeys

variable {rules : Rules π} {G : Set π} {t : Tree π υ}

/-- A reply is a move of the game. -/
theorem leads (h : t.Obeys rules G) (hstep : t.InStep) {a b : Nat} (hreply : t.Reply a b) :
    rules.Leads G (t.positionId a) (t.positionId b) := by
  obtain ⟨e, he, m, hm, rfl⟩ := hreply
  have hopen : Position.isTerminal e.position = false := by
    by_contra hended
    simp [Entry.replies, hended] at hm
  obtain ⟨moves, hmoves, hmem⟩ : ∃ moves, e.moves = some moves ∧ m ∈ moves := by
    cases hmoves : e.moves with
    | none => simp [Entry.replies, hopen, hmoves] at hm
    | some moves => exact ⟨moves, rfl, by simpa [Entry.replies, hopen, hmoves] using hm⟩
  obtain ⟨branches, hbranches, hfollows⟩ := h.moves he hmoves
  obtain ⟨branch, hbranch, _, hid⟩ := exists_match (List.Forall₂.flip (R := flip Follows) hfollows) hmem
  obtain ⟨e', he', hid'⟩ := (hstep.lookup _ _).mp (hstep.targets he hmoves m hmem)
  rw [positionId_eq he, positionId_eq he', hid', hid]
  exact .move (h.position he) hopen hbranches hbranch

/-- A game without cycles has trees without cycles. -/
theorem acyclic (h : t.Obeys rules G) (hstep : t.InStep) (hacyclic : rules.Acyclic G) : t.Acyclic := by
  intro slot hcycle
  exact hacyclic _ (hcycle.lift t.positionId fun _ _ => h.leads hstep)

end Obeys

/-! ## What a search writes into a tree -/

omit [Position π υ] in
/-- What is known of a position once a verdict was written down. -/
theorem entry?_settle (t : Tree π υ) (v : Verdict υ) (slot : Nat) :
    entry? (t.settle v) slot = if v.slot = slot then
      (t.entry? slot).map fun e => { e with utility := some v.utility, bestMoves := v.bestMoves } else t.entry? slot :=
  entry?_modifyEntry t v.slot _ slot

omit [Position π υ] in
theorem sameMoves_settle (t : Tree π υ) (v : Verdict υ) : SameMoves t (t.settle v) := by
  refine .of_map (f := fun slot e =>
    if v.slot = slot then { e with utility := some v.utility, bestMoves := v.bestMoves } else e) ?_ ?_
  · intro slot
    rw [entry?_settle]
    split
    · rfl
    · rw [Option.map_id']
  · intro slot e
    split <;> exact ⟨rfl, rfl⟩

theorem settle_spec {t : Tree π υ} (h : t.InStep) (v : Verdict υ) :
    (t.settle v).InStep ∧ SameMoves t (t.settle v) :=
  ⟨(sameMoves_settle t v).inStep h rfl (size_modifyEntry _ _ _), sameMoves_settle t v⟩

omit [Position π υ] in
theorem entry?_resetUtilities (t : Tree π υ) (slot : Nat) :
    entry? t.resetUtilities slot = (t.entry? slot).map fun e => { e with utility := none, bestMoves := [] } := by
  simp [resetUtilities, entry?]

theorem resetUtilities_spec {t : Tree π υ} (h : t.InStep) :
    t.resetUtilities.InStep ∧ SameMoves t t.resetUtilities := by
  have hsame : SameMoves t t.resetUtilities :=
    .of_map (f := fun _ e => { e with utility := none, bestMoves := [] }) (entry?_resetUtilities t) fun _ _ => ⟨rfl, rfl⟩
  exact ⟨hsame.inStep h rfl (by simp [resetUtilities, size]), hsame⟩

omit [Position π υ] in
/-- Highlighting some edges leaves all but the data of edges as it is. -/
theorem mutated_light {origin g : Graph} (h : Mutated origin g) (on : Bool) (ids : List EdgeId) :
    Mutated origin (ids.foldl (light on) g) ∧ (ids.foldl (light on) g).nodes = g.nodes ∧
      (ids.foldl (light on) g).slots = g.slots := by
  induction ids generalizing g with
  | nil => exact ⟨h, rfl, rfl⟩
  | cons id rest ih =>
      obtain ⟨hmutated, hnodes, hslots⟩ := ih
        (h.modifyEdge id (f := fun e => { e with data := e.data.set "highlighted" (.bool on) }) fun _ => ⟨rfl, rfl, rfl⟩)
      exact ⟨hmutated, hnodes.trans (Graph.nodes_updateEdge g id _), hslots.trans (Graph.slots_updateEdge g id _)⟩

theorem highlight_spec {t : Tree π υ} (h : t.InStep) (slot : Nat) (line : List Move) :
    (t.highlight slot line).InStep ∧ (t.highlight slot line).entries = t.entries := by
  have hstart : Mutated t.graph t.graph.reindex := Mutated.reindex ⟨h.arena, .refl⟩
  obtain ⟨hdark, hnodes, hslots⟩ := mutated_light hstart false (t.graph.edgeList.map Edge.id)
  obtain ⟨hlit, hnodes', hslots'⟩ := mutated_light hdark true
    (edgesAlong ((t.graph.edgeList.map Edge.id).foldl (light false) t.graph.reindex) slot line)
  exact ⟨h.same_nodes hlit (hnodes'.trans hnodes) (hslots'.trans hslots), rfl⟩

end

end Tree

end SearchLab.Game
