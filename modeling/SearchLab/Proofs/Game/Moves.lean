import SearchLab.Proofs.Game.Mirror
import SearchLab.Proofs.Game.Session

/-!
# Moves at any time

An engine is asked to expand positions, with rules that may fail at any call; its tree is given other roots; budgets are
set; sessions are begun with it, and take their ticks. In any order of all that the tree goes on to mirror its moves. An
evaluation that goes on in the next tick carries moves of its own, which were taken from the tree when it was smaller:
they lead to the same nodes as ever (`Evaluation.Named`).

* `Engine.mirrors_run`, `mirrors_tick` — what one call does, and one tick;
* `moves_are_mirrored` — any sequence of them.
-/

namespace SearchLab.Game

open SearchLab.Game.Tree (Grows Mirrors Named)

variable {π υ : Type} [Position π υ]

/-! ## Expansions -/

namespace Engine

theorem mirrors_expandNode (rules : Rules π) (slot : Nat) {e : Engine π υ} (h : e.tree.Mirrors) :
    ((expandNode rules slot).after e).tree.Mirrors ∧ Grows e.tree ((expandNode rules slot).after e).tree := by
  have houtcome := expandNode_outcome rules slot h.toInStep
  rw [after_eq_engine]
  refine ⟨?_, (houtcome.inStep_grows h.toInStep).2⟩
  generalize expandNode rules slot e = r at houtcome
  cases houtcome with
  | missing | kept | refused | failed => exact h
  | opened hentry hmoves _ _ hgrow htree hopens => exact h.grow hentry hmoves hgrow htree hopens

theorem mirrors_expand (rules : Rules π) (p : π) {e : Engine π υ} (h : e.tree.Mirrors) :
    ((expand rules p).after e).tree.Mirrors ∧ Grows e.tree ((expand rules p).after e).tree := by
  cases hslot : e.tree.graph.slot? (Position.id p) with
  | some slot =>
      have hsame : (expand rules p).after e = (expandNode rules slot).after e := by simp only [Edit.after, expand, hslot]
      rw [hsame]
      exact mirrors_expandNode rules slot h
  | none =>
      obtain ⟨slot, isNew, tree, hensure, htree, _, hjoins⟩ := Tree.ensureNode_spec h.toInStep p
      have hsame : (expand rules p).after e = (expandNode rules slot).after { e with tree, grown := true } := by
        simp only [Edit.after, expand, hslot, hensure]
      have hjoined := h.joins htree hjoins ((Tree.composes_draws slot).ensureNode h.toInStep hensure)
      obtain ⟨hmirrors, hgrows⟩ := mirrors_expandNode rules slot (e := { e with tree, grown := true }) hjoined
      rw [hsame]
      exact ⟨hmirrors, hjoins.grows.trans hgrows⟩

/-- **What an engine is asked to do leaves its moves mirrored**, whether it fails or not. -/
theorem mirrors_run (call : Call π) {e : Engine π υ} (h : e.tree.Mirrors) :
    (call.run e).tree.Mirrors ∧ Grows e.tree (call.run e).tree := by
  cases call with
  | setBudget budget => exact ⟨h, .refl _⟩
  | expandNode rules slot => exact mirrors_expandNode rules slot h
  | expand rules p => exact mirrors_expand rules p h

end Engine

/-! ## Evaluations -/

section

variable [Score υ]

namespace Evaluation

omit [Position π υ] [Score υ] in
/-- The moves that an evaluation carries lead to the nodes whose ids they carry. -/
def Named (t : Tree π υ) (s : Evaluation υ) : Prop :=
  ∀ f ∈ s.stack, ∀ m, m ∈ f.moves ∨ m ∈ f.bestMoves → t.Named m

theorem named_of_inner {t : Tree π υ} (h : t.InStep) {slot : Nat} {player : Player} {moves : List Move}
    (happroach : approach t slot = .ok (.inner player moves)) : ∀ m ∈ moves, t.Named m := by
  unfold approach at happroach
  split at happroach
  · exact absurd happroach (by simp)
  · rename_i entry hentry
    split at happroach
    · exact absurd happroach (by simp)
    · split at happroach
      · rename_i hmoves
        split at happroach
        · simp only [Except.ok.injEq, Approach.inner.injEq] at happroach
          obtain ⟨_, rfl⟩ := happroach
          exact h.targets hentry hmoves
        · exact absurd happroach (by simp)
      · exact absurd happroach (by simp)

omit [Position π υ] in
/-- What a frame takes note of is the move at hand. -/
theorem mem_bestMoves_absorb {f : Frame υ} {u : υ} {move m : Move} {moves : List Move}
    (hm : m ∈ (f.absorb u move moves).bestMoves) : m = move ∨ m ∈ f.bestMoves := by
  unfold Frame.absorb at hm
  split at hm
  · exact .inl (List.mem_singleton.mp hm)
  · split at hm
    · exact .inl (List.mem_singleton.mp hm)
    · split at hm
      · rcases List.mem_append.mp hm with hm | hm
        · exact .inr hm
        · exact .inl (List.mem_singleton.mp hm)
      · exact .inr hm

namespace Named

variable {t t' : Tree π υ} {s : Evaluation υ}

omit [Position π υ] [Score υ] in
theorem ofRoot (t : Tree π υ) (root : Nat) : (Evaluation.ofRoot root : Evaluation υ).Named t := by
  intro f hf
  exact absurd hf List.not_mem_nil

omit [Score υ] in
/-- The moves that an evaluation carries stay right while the tree grows. -/
theorem grows (hs : s.Named t) (h : t.InStep) (h' : t'.InStep) (hgrows : Grows t t') : s.Named t' :=
  fun f hf m hm => (hs f hf m hm).grows h h' hgrows

omit [Position π υ] [Score υ] in
/-- A position joins the line with its moves. -/
theorem push (hs : s.Named t) {slot : Nat} {player : Player} {moves : List Move} (hmoves : ∀ m ∈ moves, t.Named m)
    (root : Option Nat) : Named t ({ root, stack := { slot, player, moves } :: s.stack } : Evaluation υ) := by
  intro f hf m hm
  rcases List.mem_cons.mp hf with rfl | hf
  · rcases hm with hm | hm
    · exact hmoves m hm
    · exact absurd hm List.not_mem_nil
  · exact hs f hf m hm

omit [Position π υ] in
/-- The frame on top takes note of a move. -/
theorem absorb (hs : s.Named t) {f : Frame υ} {below : List (Frame υ)} {move : Move} {moves : List Move}
    (hstack : s.stack = f :: below) (hmoves : f.moves = move :: moves) (u : υ) (root : Option Nat) :
    Named t ({ root, stack := f.absorb u move moves :: below } : Evaluation υ) := by
  have hframe := hs f (hstack ▸ List.mem_cons_self)
  intro f' hf' m hm
  rcases List.mem_cons.mp hf' with rfl | hf'
  · rcases hm with hm | hm
    · rw [Frame.moves_absorb] at hm
      exact hframe m (.inl (hmoves ▸ List.mem_cons_of_mem move hm))
    · rcases mem_bestMoves_absorb hm with rfl | hm
      · exact hframe m (.inl (hmoves ▸ List.mem_cons_self))
      · exact hframe m (.inr hm)
  · exact hs f' (hstack ▸ List.mem_cons_of_mem f hf') m hm

end Named

/-- **The moves that an evaluation brings** carry the ids of their nodes, and so do those that it goes on with. -/
theorem seek_named {t : Tree π υ} (h : t.InStep) {s : Evaluation υ} (hs : s.Named t) :
    (seek t s).2.Named t ∧ ∀ v, (seek t s).1 = .ok (some v) → ∀ m ∈ v.bestMoves, t.Named m := by
  have hleaf : ∀ {slot : Nat} {u : υ} {v : Verdict υ}, (Except.ok (some ⟨slot, u, []⟩) : Except Error _) = .ok (some v) →
      ∀ m ∈ v.bestMoves, t.Named m := by
    intro slot u v hv m hm
    cases hv
    exact absurd hm List.not_mem_nil
  -- One case for each turn that `seek` can take.
  fun_induction seek t s with
  | case1 s root hr err happroach => exact ⟨hs, by simp⟩
  | case2 s root hr u happroach => exact ⟨hs, fun v hv => hleaf hv⟩
  | case3 s root hr player moves happroach ih => exact ih (hs.push (named_of_inner h happroach) none)
  | case4 s hr hstack => exact ⟨hs, by simp⟩
  | case5 s hr f below hstack hmoves =>
      refine ⟨fun f' hf' => hs f' (hstack ▸ List.mem_cons_of_mem f hf'), fun v hv m hm => ?_⟩
      cases hv
      exact hs f (hstack ▸ List.mem_cons_self) m (.inr hm)
  | case6 s hr f below hstack move moves hmoves u hu ih => exact ih (hs.absorb hstack hmoves u s.root)
  | case7 s hr f below hstack move moves hmoves hu hline ih => exact ih (hs.absorb hstack hmoves Score.zero s.root)
  | case8 s hr f below hstack move moves hmoves hu hoff err happroach => exact ⟨hs, by simp⟩
  | case9 s hr f below hstack move moves hmoves hu hoff u happroach => exact ⟨hs, fun v hv => hleaf hv⟩
  | case10 s hr f below hstack move rest hmoves hu hoff player moves happroach ih =>
      exact ih (hs.push (named_of_inner h happroach) s.root)

end Evaluation

/-! ## Sessions -/

namespace Session

/-- The tree of a session mirrors its moves, and the evaluation that goes on in the next tick carries right ones. -/
structure Mirrors (s : Session π υ) : Prop where
  tree : s.engine.tree.Mirrors
  evaluation : ∀ ev, s.evaluation = some ev → ev.Named s.engine.tree

namespace Mirrors

variable {s : Session π υ}

omit [Score υ] in
/-- Another tree that has grown from the old one may take its place. -/
theorem withEngine (h : s.Mirrors) {e : Engine π υ} (he : e.tree.Mirrors) (hgrows : Grows s.engine.tree e.tree) :
    { s with engine := e }.Mirrors :=
  ⟨he, fun ev hev => (h.evaluation ev hev).grows h.tree.toInStep he.toInStep hgrows⟩

omit [Score υ] in
theorem step_deepening (rules : Rules π) {before : Tree π υ} {d : Deepening × Engine π υ} (h : d.2.tree.Mirrors)
    (hgrows : Grows before d.2.tree) :
    ((Deepening.step rules).after d).2.tree.Mirrors ∧ Grows before ((Deepening.step rules).after d).2.tree := by
  have hstepped := Deepening.step_stepped rules d
  unfold Edit.after
  generalize Deepening.step rules d = r at hstepped
  have hexpanded : ∀ slot, ((Engine.expandNode rules slot).after d.2).tree.Mirrors ∧
      Grows before ((Engine.expandNode rules slot).after d.2).tree := by
    intro slot
    obtain ⟨hmirrors, hgrows'⟩ := Engine.mirrors_expandNode rules slot h
    exact ⟨hmirrors, hgrows.trans hgrows'⟩
  cases hstepped with
  | finished => exact ⟨h, hgrows⟩
  | failed _ hexpand => exact Edit.after_error hexpand ▸ hexpanded _
  | expanded _ hexpand => exact Edit.after_ok hexpand ▸ hexpanded _

theorem step_evaluation {ev : Evaluation υ × Engine π υ} (h : ev.2.tree.Mirrors) (hev : ev.1.Named ev.2.tree) :
    (evaluationStep.after ev).2.tree.Mirrors ∧ (evaluationStep.after ev).1.Named (evaluationStep.after ev).2.tree := by
  obtain ⟨hnext, hverdict⟩ := Evaluation.seek_named h.toInStep hev
  have hevaluated := evaluationStep_evaluated ev
  unfold Edit.after
  generalize evaluationStep ev = r at hevaluated
  cases hevaluated with
  | failed hseek | finished hseek =>
      rw [hseek] at hnext
      exact ⟨h, hnext⟩
  | @judged v _ hseek =>
      rw [hseek] at hnext hverdict
      exact ⟨h.settle v (hverdict v rfl), hnext⟩

/-- The evaluation of a tick leaves the moves mirrored. -/
theorem evaluating (h : s.Mirrors) (rules : Rules π) (expansionTime evaluationTime : Nat) :
    (s.evaluating rules expansionTime evaluationTime).state.2.tree.Mirrors ∧
      (s.evaluating rules expansionTime evaluationTime).state.1.Named
        (s.evaluating rules expansionTime evaluationTime).state.2.tree := by
  obtain ⟨hexpanded, hgrows⟩ : (s.expanded rules expansionTime).engine.tree.Mirrors ∧
      Grows s.engine.tree (s.expanded rules expansionTime).engine.tree :=
    Slice.run_keeps (P := fun d : Deepening × Engine π υ => d.2.tree.Mirrors ∧ Grows s.engine.tree d.2.tree)
      (fun _ hd => step_deepening rules hd.1 hd.2) expansionTime ⟨h.tree, .refl _⟩
  have hbetween : (s.expanded rules expansionTime).settled.2.engine.tree.Mirrors ∧
      ((s.expanded rules expansionTime).settled.2.evaluation.getD
        (Evaluation.ofRoot (s.expanded rules expansionTime).settled.2.root)).Named
          (s.expanded rules expansionTime).settled.2.engine.tree := by
    have hkept : ∀ ev, (s.expanded rules expansionTime).evaluation = some ev →
        ev.Named (s.expanded rules expansionTime).engine.tree :=
      fun ev hev => (h.evaluation ev hev).grows h.tree.toInStep hexpanded.toInStep hgrows
    generalize s.expanded rules expansionTime = between at hexpanded hkept
    unfold settled Engine.takeGrown
    cases hgrown : between.engine.grown with
    | true => exact ⟨hexpanded.resetUtilities, .ofRoot _ _⟩
    | false =>
        refine ⟨hexpanded, ?_⟩
        cases hev : between.evaluation with
        | none => simpa [hev] using Evaluation.Named.ofRoot between.engine.tree between.root
        | some ev => simpa [hev] using hkept ev hev
  exact Slice.run_keeps (P := fun ev : Evaluation υ × Engine π υ => ev.2.tree.Mirrors ∧ ev.1.Named ev.2.tree)
    (fun _ hev => step_evaluation hev.1 hev.2) evaluationTime hbetween

/-- **A tick leaves the moves mirrored.** -/
theorem tick (h : s.Mirrors) (rules : Rules π) (expansionTime evaluationTime : Nat) :
    (Session.tick rules expansionTime evaluationTime s).2.Mirrors := by
  have hevaluated := h.evaluating rules expansionTime evaluationTime
  obtain ⟨_, hstate⟩ := tick_eq rules expansionTime evaluationTime s
  rw [hstate]
  generalize s.evaluating rules expansionTime evaluationTime = evaluating at hevaluated
  obtain ⟨hlit, hnamed⟩ := hevaluated.1.highlight (s.expanded rules expansionTime).settled.2.root
    (evaluating.state.2.tree.bestLine (s.expanded rules expansionTime).settled.2.root)
  refine ⟨hlit, fun ev hev => ?_⟩
  obtain rfl : evaluating.state.1 = ev := Option.some.inj hev
  exact fun f hf m hm => hnamed m (hevaluated.2 f hf m hm)

omit [Score υ] in
/-- Another root leaves the moves mirrored. -/
theorem setRoot (h : s.Mirrors) (p : π) : ((Session.setRoot p).after s).Mirrors := by
  obtain ⟨root, tree, hroot, hmirrors, hgrows⟩ := h.tree.setRoot p
  have hmoved := h.withEngine (e := { s.engine with tree }) hmirrors hgrows
  unfold Edit.after Session.setRoot
  simp only [hroot]
  by_cases hsame : root = s.root
  · simp only [hsame, if_true]
    exact hmoved
  · simp only [hsame, if_false]
    exact ⟨hmirrors, by simp⟩

end Mirrors

/-! ## Sequences of steps -/

/-- What is done with an engine and the sessions that are begun with it. -/
inductive Step (π : Type) where
  /-- The engine is asked to expand a position, or its budget is set. -/
  | ask (call : Engine.Call π)
  /-- The budget of steps is set. -/
  | setSteps (budget : Budget)
  /-- The tree is given another root. -/
  | setTreeRoot (p : π)
  | setRoot (p : π)
  /-- A tick, with the rules as they are at that time; the time of a slice is up after so many steps. -/
  | tick (rules : Rules π) (expansionTime evaluationTime : Nat)
  /-- Another session is begun with the engine. -/
  | begin (depth : Nat) (configuration : Configuration)

/-- The session after a step, also when the step fails. -/
def Step.run (s : Session π υ) : Step π → Session π υ
  | .ask call => { s with engine := call.run s.engine }
  | .setSteps budget => { s with engine := { s.engine with steps := budget } }
  | .setTreeRoot p => { s with engine := { s.engine with tree := (Tree.setRoot p).after s.engine.tree } }
  | .setRoot p => (Session.setRoot p).after s
  | .tick rules expansionTime evaluationTime => (Session.tick rules expansionTime evaluationTime s).2
  | .begin depth configuration => ofEngine s.engine depth configuration

/-- The session after some steps. -/
def play (steps : List (Step π)) (s : Session π υ) : Session π υ := steps.foldl Step.run s

theorem Mirrors.step {s : Session π υ} (h : s.Mirrors) (step : Step π) : (step.run s).Mirrors := by
  cases step with
  | ask call =>
      obtain ⟨hmirrors, hgrows⟩ := Engine.mirrors_run call h.tree
      exact h.withEngine hmirrors hgrows
  | setSteps budget => exact ⟨h.tree, h.evaluation⟩
  | setTreeRoot p =>
      obtain ⟨root, tree, hroot, hmirrors, hgrows⟩ := h.tree.setRoot p
      have hmoved := h.withEngine (e := { s.engine with tree }) hmirrors hgrows
      rw [Step.run, Edit.after_ok hroot]
      exact hmoved
  | setRoot p => exact h.setRoot p
  | tick rules expansionTime evaluationTime => exact h.tick rules expansionTime evaluationTime
  | begin depth configuration => exact ⟨h.tree, by simp [Step.run, ofEngine]⟩

theorem mirrors_play (steps : List (Step π)) {s : Session π υ} (h : s.Mirrors) : (play steps s).Mirrors := by
  induction steps generalizing s with
  | nil => exact h
  | cons step rest ih => exact ih (h.step step)

omit [Score υ] in
theorem mirrors_ofEngine {rules : Rules π} {fresh : Engine π υ} (hfresh : Engine.ofRules rules = .ok fresh) (depth : Nat)
    (configuration : Configuration) : (ofEngine fresh depth configuration).Mirrors := by
  obtain ⟨p, _, rfl⟩ := Engine.ofRules_spec hfresh
  exact ⟨Tree.Mirrors.ofRoot p, by simp [ofEngine]⟩

/-- **Moves are mirrored at any time.** Take any game, whether its moves lead to the same positions, or back, or twice to
one position, and any sequence of expansions, other roots, budgets, sessions and ticks that begins with nothing known of
the game; the rules may fail at any call. Each position of the tree has a node in its slot, and there are no other
nodes; the node has the id of the position, and no two nodes have the same. A node is marked as expanded just when the
moves of its position are kept, and before that no edge is stored from there. A move, also one that was found best,
carries the id of the node that it leads to. The moves that are read from the edges of an expanded node are those that
are kept, in the same order and with the same actions. -/
theorem moves_are_mirrored {start : Rules π} {fresh : Engine π υ} (hfresh : Engine.ofRules start = .ok fresh) (depth : Nat)
    (configuration : Configuration) (steps : List (Step π)) :
    let t := (play steps (ofEngine fresh depth configuration)).engine.tree
    t.graph.nodes.size = t.size ∧
    (∀ slot entry, t.entry? slot = some entry →
      ∃ n, t.graph.node? slot = some n ∧ n.slot = slot ∧ n.id = Position.id entry.position) ∧
    (t.graph.nodeList.map Node.id).Nodup ∧
    (∀ slot entry, t.entry? slot = some entry → t.isExpanded slot = entry.moves.isSome) ∧
    (∀ slot entry, t.entry? slot = some entry → entry.moves = none → ∀ e ∈ t.graph.edgeList, e.source ≠ slot) ∧
    (∀ slot entry m, t.entry? slot = some entry → m ∈ entry.moves.getD [] ∨ m ∈ entry.bestMoves →
      t.graph.idOf? m.slot = some m.id) ∧
    ∀ slot entry moves, t.entry? slot = some entry → entry.moves = some moves → t.movesFromEdges slot = moves := by
  obtain ⟨p, _, rfl⟩ := Engine.ofRules_spec hfresh
  have hbegun : (ofEngine { tree := Tree.ofRoot p } depth configuration : Session π υ).Mirrors :=
    ⟨Tree.Mirrors.ofRoot p, by simp [ofEngine]⟩
  intro t
  have h : t.Mirrors := (mirrors_play steps hbegun).tree
  have hnamed : ∀ m, t.Named m → t.graph.idOf? m.slot = some m.id := by
    intro m hm
    obtain ⟨n, hn, hid⟩ := (h.arena.lookup m.id m.slot).mp hm
    rw [Graph.idOf?, hn, Option.map_some, hid]
  refine ⟨h.size, ?_, h.arena.nodup_ids, fun _ _ => h.expanded, ?_, ?_, ?_⟩
  · intro slot entry hentry
    obtain ⟨n, hn, hid⟩ := (h.arena.lookup _ _).mp (h.slot?_id hentry)
    exact ⟨n, hn, h.arena.slot hn, hid⟩
  · intro slot entry hentry hnone e he hsource
    have hkept := h.kept hentry
    rw [hnone, Option.getD_none, List.map_nil, Graph.outgoing, List.map_eq_nil_iff, List.filter_eq_nil_iff] at hkept
    exact hkept e he (by simpa using hsource)
  · rintro slot entry m hentry (hm | hm)
    · cases hmoves : entry.moves with
      | none => simp [hmoves] at hm
      | some moves => exact hnamed m (h.targets hentry hmoves m (by simpa [hmoves] using hm))
    · exact hnamed m (h.best hentry m hm)
  · intro slot entry moves hentry hmoves
    rw [h.movesFromEdges hentry, hmoves, Option.getD_some]

/-- An expansion, a tick that is cut short and one that meets broken rules, another root, and another session. -/
theorem moves_are_mirrored_sample :
    let rules := Table.twoPly.rules none
    let broken := Table.twoPly.rules (some "out of order")
    let left : Place := ⟨"left", "left", some .min, false, 0.0, some 0.5,
      [[("to", .text "lost")], [("to", .text "even")]]⟩
    let steps : List (Step Place) := [.ask (.setBudget (.limited 3)), .ask (.expandNode rules 0), .tick rules 1 2,
      .tick broken 3 3, .setRoot left, .begin 2 {}, .tick rules 9 9]
    ∃ fresh : Engine Place Float, Engine.ofRules rules = .ok fresh ∧
      let t := (play steps (ofEngine fresh 1 {})).engine.tree
      ∀ slot entry moves, t.entry? slot = some entry → entry.moves = some moves → t.movesFromEdges slot = moves := by
  intro rules broken left steps
  obtain ⟨fresh, hfresh⟩ : ∃ fresh : Engine Place Float, Engine.ofRules rules = .ok fresh := ⟨_, rfl⟩
  exact ⟨fresh, hfresh, (moves_are_mirrored hfresh 1 {} steps).2.2.2.2.2.2⟩

end Session

end

end SearchLab.Game
