import SearchLab.Proofs.Game.Moves
import SearchLab.Proofs.Game.Slicing

/-!
# What lasts in a tree

Whatever is done with an engine and its sessions, a tree changes in three ways only: a position joins it, a position is
expanded, and a search writes into it what leaves a twin. What each of the three keeps will last (`Tree.Lasts`).

* `stores_grow` — where a position is expanded, its moves are stored as edges behind all others;
* `Tree.Lasts.play` — what lasts, lasts through any sequence of steps.
-/

namespace SearchLab.Game

variable {π υ : Type}

namespace Tree

/-! ## Edges that are stored -/

/-- The edges of some moves of a node were stored behind all others; their data are the actions and nothing else. -/
def Stores (source : Nat) (moves : List Move) (s t : Tree π υ) : Prop :=
  ∃ new : List Edge, t.graph.edgeList = s.graph.edgeList ++ new ∧
    new.map (fun e => (e.source, e.target, e.data)) = moves.map fun m => (source, m.slot, [("action", .object m.action)])

namespace Stores

variable {source : Nat} {moves more : List Move} {s t u : Tree π υ}

theorem of_edgeList (h : t.graph.edgeList = s.graph.edgeList) : Stores source [] s t :=
  ⟨[], by rw [h, List.append_nil], rfl⟩

theorem trans (h : Stores source moves s t) (h' : Stores source more t u) : Stores source (moves ++ more) s u := by
  obtain ⟨new, hedges, hnew⟩ := h
  obtain ⟨later, hedges', hlater⟩ := h'
  exact ⟨new ++ later, by rw [hedges', hedges, List.append_assoc], by rw [List.map_append, List.map_append, hnew, hlater]⟩

/-- Each move has brought one edge. -/
theorem edgeCount (h : Stores source moves s t) : t.graph.edgeCount = s.graph.edgeCount + moves.length := by
  obtain ⟨new, hedges, hnew⟩ := h
  have hlength : new.length = moves.length := by simpa using congrArg List.length hnew
  rw [Graph.edgeCount, hedges, List.length_append, hlength, Graph.edgeCount]

end Stores

/-- Nothing is stored where no edge comes in. -/
theorem Stores.edgeList {source : Nat} {s t : Tree π υ} (h : Stores source [] s t) :
    t.graph.edgeList = s.graph.edgeList := by
  obtain ⟨new, hedges, hnew⟩ := h
  rw [hedges, List.map_eq_nil_iff.mp hnew, List.append_nil]

variable [Position π υ]

/-- Moves are stored in their order, and positions that join the tree store nothing. -/
theorem composes_stores (source : Nat) : Composes source (Stores (π := π) (υ := υ) source) where
  refl _ := .of_edgeList rfl
  trans := .trans
  pushed _ _ := .of_edgeList rfl
  linked t move := ⟨_, edgeList_linked t source move.slot move.action, rfl⟩

/-- Where a position is expanded, its moves are stored. -/
theorem stores_grow {slot : Nat} {e : Entry π υ} {p : π} {branches : List (Action × π)} {moves : List Move}
    {t t' : Tree π υ} (h : t.InStep) (he : t.entry? slot = some e) (hgrow : grow slot p branches t = .ok moves t') :
    Stores slot moves t t' :=
  (composes_stores slot).grow (fun _ _ _ => .of_edgeList rfl) (fun _ _ _ => .of_edgeList rfl) h he hgrow

/-- Positions that join a tree bring no edges. -/
theorem edgeList_ensureNode {p : π} {found : Nat × Bool} {t t' : Tree π υ} (h : t.InStep)
    (hensure : ensureNode p t = .ok found t') : t'.graph.edgeList = t.graph.edgeList :=
  ((composes_stores t.root).ensureNode h hensure).edgeList

/-! ## What lasts -/

/-- A property of trees that is kept where a position joins, where one is expanded, and by whatever leaves a twin. -/
structure Lasts (P : Tree π υ → Prop) : Prop where
  joins : ∀ {p found t t'}, t.Mirrors → P t → ensureNode p t = .ok found t' → P t'
  grows : ∀ {slot e branches moves t t'}, t.Mirrors → P t → t.entry? slot = some e → e.moves = none →
    grow slot e.position branches t = .ok moves t' → P t'
  twins : ∀ {t t'}, Twins t t' → P t → P t'

namespace Lasts

variable {P : Tree π υ → Prop} (hlasts : Lasts P)

include hlasts

theorem setRoot {t : Tree π υ} (h : t.Mirrors) (ht : P t) (p : π) {root : Nat} {tree : Tree π υ}
    (hroot : Tree.setRoot p t = .ok root tree) : P tree := by
  obtain ⟨slot, isNew, t', hensure, _⟩ := ensureNode_spec h.toInStep p
  simp only [Tree.setRoot, hensure, EStateM.Result.ok.injEq] at hroot
  obtain ⟨rfl, rfl⟩ := hroot
  exact hlasts.twins (t := t') ⟨.refl _, rfl⟩ (hlasts.joins h ht hensure)

/-! ### Engines -/

theorem expandNode (rules : Rules π) (slot : Nat) {e : Engine π υ} (h : e.tree.Mirrors) (he : P e.tree) :
    P ((Engine.expandNode rules slot).after e).tree := by
  have houtcome := Engine.expandNode_outcome rules slot h.toInStep
  rw [Engine.after_eq_engine]
  generalize Engine.expandNode rules slot e = r at houtcome
  cases houtcome with
  | missing | kept | refused | failed => exact he
  | opened hentry hmoves _ _ hgrow => exact hlasts.grows h he hentry hmoves hgrow

/-- What lasts, lasts through whatever an engine is asked to do. -/
theorem run (call : Engine.Call π) {e : Engine π υ} (h : e.tree.Mirrors) (he : P e.tree) : P (call.run e).tree := by
  cases call with
  | setBudget budget => exact he
  | expandNode rules slot => exact hlasts.expandNode rules slot h he
  | expand rules p =>
      cases hslot : e.tree.graph.slot? (Position.id p) with
      | some slot =>
          have hsame : (Engine.expand rules p).after e = (Engine.expandNode rules slot).after e := by
            simp only [Edit.after, Engine.expand, hslot]
          rw [Engine.Call.run, hsame]
          exact hlasts.expandNode rules slot h he
      | none =>
          obtain ⟨slot, isNew, tree, hensure, htree, _, hjoins⟩ := ensureNode_spec h.toInStep p
          have hsame : (Engine.expand rules p).after e =
              (Engine.expandNode rules slot).after { e with tree, grown := true } := by
            simp only [Edit.after, Engine.expand, hslot, hensure]
          rw [Engine.Call.run, hsame]
          exact hlasts.expandNode rules slot (h.joins htree hjoins ((composes_draws slot).ensureNode h.toInStep hensure))
            (hlasts.joins h he hensure)

/-! ### Sessions -/

variable [Score υ]

/-- What lasts, lasts through a tick. -/
theorem tick (rules : Rules π) (expansionTime evaluationTime : Nat) {s : Session π υ} (h : s.Mirrors)
    (hs : P s.engine.tree) : P (Session.tick rules expansionTime evaluationTime s).2.engine.tree := by
  obtain ⟨hmirrors, hexpanded⟩ : (s.expanded rules expansionTime).engine.tree.Mirrors ∧
      P (s.expanded rules expansionTime).engine.tree := by
    refine Slice.run_keeps (P := fun d : Deepening × Engine π υ => d.2.tree.Mirrors ∧ P d.2.tree) (fun d hd => ?_)
      expansionTime ⟨h.tree, hs⟩
    refine ⟨(Session.Mirrors.step_deepening rules hd.1 (.refl _)).1, ?_⟩
    have hstepped := Deepening.step_stepped rules d
    unfold Edit.after
    generalize Deepening.step rules d = r at hstepped
    cases hstepped with
    | finished => exact hd.2
    | failed _ hexpand => exact Edit.after_error hexpand ▸ hlasts.expandNode rules _ hd.1 hd.2
    | expanded _ hexpand => exact Edit.after_ok hexpand ▸ hlasts.expandNode rules _ hd.1 hd.2
  exact hlasts.twins (Session.written_tick rules expansionTime evaluationTime hmirrors.toInStep).2 hexpanded

theorem step (step : Session.Step π) {s : Session π υ} (h : s.Mirrors) (hs : P s.engine.tree) :
    P (step.run s).engine.tree := by
  cases step with
  | ask call => exact hlasts.run call h.tree hs
  | setSteps budget => exact hs
  | setTreeRoot p =>
      obtain ⟨root, tree, hroot, _⟩ := h.tree.setRoot p
      rw [Session.Step.run, Edit.after_ok hroot]
      exact hlasts.setRoot h.tree hs p hroot
  | setRoot p =>
      obtain ⟨root, tree, hroot, _⟩ := h.tree.setRoot p
      have hkept := hlasts.setRoot h.tree hs p hroot
      simp only [Session.Step.run, Edit.after, Session.setRoot, hroot]
      by_cases hsame : root = s.root
      · simp only [hsame, if_true]
        exact hkept
      · simp only [hsame, if_false]
        exact hkept
  | tick rules expansionTime evaluationTime => exact hlasts.tick rules expansionTime evaluationTime h hs
  | begin depth configuration => exact hs

/-- **What lasts, lasts through any sequence of steps.** -/
theorem play (steps : List (Session.Step π)) {s : Session π υ} (h : s.Mirrors) (hs : P s.engine.tree) :
    P (Session.play steps s).engine.tree := by
  induction steps generalizing s with
  | nil => exact hs
  | cons step rest ih => exact ih (h.step step) (hlasts.step step h hs)

end Lasts

end Tree

end SearchLab.Game
