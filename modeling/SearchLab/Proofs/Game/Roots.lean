import SearchLab.Proofs.Game.Runs
import SearchLab.Proofs.Game.Slicing

/-!
# Evaluations after a change of root

When a session goes on from another root, what was found under the old one stays in the tree until that grows, and the
new evaluation takes it as it is. `carriedAll` is what has come down like that.

* `Tracing` — an evaluation between two ticks has begun with what was carried over;
* `tick_ends` — a tick that has the time comes to the end of its evaluation;
* `fresh_search_agrees` — a fresh search finds the same at the root, unless a position of a cycle was carried over.
-/

namespace SearchLab.Game

open Relation (ReflTransGen TransGen)
open SearchLab.Game.Tree (Retains SameMoves Joins)

variable {π υ : Type} [Position π υ]

variable [Score υ]

namespace Session

variable {rules : Rules π} {G : Set π} {start : Nat → Option υ}

/-! ## What is carried over -/

/-- What is carried over by a call, of the worth that positions had under earlier roots: a change of the root carries over
all that is written down, and a tree that grows forgets it. -/
def Call.carried (rules : Rules π) (s : Session π υ) (start : Nat → Option υ) : Call π → Nat → Option υ
  | .tick expansionTime evaluationTime =>
    if (Session.tick rules expansionTime evaluationTime s).1.grown then fun _ => none else start
  | .setRoot p => if ((Session.setRoot p).after s).root = s.root then start else s.engine.tree.utility?

/-- What has been carried over after some calls. -/
def carriedAll (rules : Rules π) : List (Call π) → Session π υ → (Nat → Option υ) → Nat → Option υ
  | [], _, start => start
  | call :: rest, s, start => carriedAll rules rest (call.run rules s) (call.carried rules s start)

theorem carriedAll_append (calls : List (Call π)) (call : Call π) (s : Session π υ) (start : Nat → Option υ) :
    carriedAll rules (calls ++ [call]) s start =
      call.carried rules (runAll rules calls s) (carriedAll rules calls s start) := by
  induction calls generalizing s start with
  | nil => rfl
  | cons first rest ih => exact ih _ _

/-! ## The evaluation of a tick -/

/-- There is a player wherever a game goes on. -/
def Peopled (rules : Rules π) (G : Set π) : Prop :=
  ∀ p ∈ G, Position.isTerminal p = false → ∀ bs, rules.branches p = .ok bs → bs ≠ [] → (Position.player p).isSome = true

/-- An evaluation that goes on in a tick, with the tree that it goes through and what it has begun with. -/
structure Tracing (rules : Rules π) (G : Set π) (root : Nat) (start : Nat → Option υ) (s : Evaluation υ × Engine π υ) :
    Prop where
  inStep : s.2.tree.InStep
  obeys : s.2.tree.Obeys rules G
  grown : s.2.grown = false
  live : ∃ e, s.2.tree.entry? root = some e
  follows : Evaluation.Follows root start s.2.tree s.1

namespace Tracing

variable {root : Nat} {s s' : Evaluation υ × Engine π υ}

theorem step (h : Tracing rules G root start s) : Tracing rules G root start (evaluationStep.after s) := by
  have hevaluated := evaluationStep_evaluated s
  unfold Edit.after
  generalize evaluationStep s = r at hevaluated
  cases hevaluated with
  | failed hseek => exact ⟨h.inStep, h.obeys, h.grown, h.live, h.follows.failed hseek⟩
  | finished hseek => exact ⟨h.inStep, h.obeys, h.grown, h.live, (h.follows.finished hseek).2⟩
  | @judged v ev hseek =>
      obtain ⟨hstep, hsame⟩ := Tree.settle_spec h.inStep v
      obtain ⟨e, he⟩ := h.live
      obtain ⟨e', he', _⟩ := hsame.there.entry he
      exact ⟨hstep, h.obeys.sameMoves hsame, h.grown, ⟨e', he'⟩, (h.follows.found hseek).1⟩

/-- An evaluation that has nothing left to do is at its end. -/
theorem ended (h : Tracing rules G root start s) (hnone : evaluationStep s = .ok none s') : s'.1 = ⟨none, []⟩ := by
  have hevaluated := evaluationStep_evaluated s
  rw [hnone] at hevaluated
  cases hevaluated with
  | finished hseek => exact (h.follows.finished hseek).1

/-- Highlighting a line leaves the entries of a tree alone. -/
theorem highlight {ev : Evaluation υ} {e : Engine π υ} (h : Tracing rules G root start (ev, e)) (line : List Move) :
    Tracing rules G root start (ev, { e with tree := e.tree.highlight root line }) := by
  obtain ⟨hstep, hentries⟩ := Tree.highlight_spec h.inStep root line
  have hsame : SameMoves e.tree (e.tree.highlight root line) := .of_entries hentries
  have hentry : ∀ slot, Tree.entry? (e.tree.highlight root line) slot = e.tree.entry? slot := fun slot => by
    rw [ Tree.entry?, Tree.entry?, hentries]
  refine ⟨hstep, h.obeys.sameMoves hsame, h.grown, ?_, h.follows.retained hsame.there (funext fun slot => ?_)⟩
  · obtain ⟨e₁, he₁⟩ := h.live
    exact ⟨e₁, (hentry root).trans he₁⟩
  · rw [Tree.utility?, Tree.utility?, hentry]

/-- The positions that the root leads to can be approached, if there is a player wherever the game goes on. -/
theorem answers (h : Tracing rules G root start s) (hplayer : Peopled rules G) {slot : Nat}
    (hreached : ReflTransGen (Evaluation.Onward (Evaluation.approach s.2.tree)) root slot) :
    ∃ a, Evaluation.approach s.2.tree slot = .ok a := by
  obtain ⟨e, he⟩ := Evaluation.entry_of_reached h.inStep h.live hreached
  refine Evaluation.exists_approach he fun hopen hsome => ?_
  cases hmoves : e.moves with
  | none => simp [hmoves] at hsome
  | some moves =>
      obtain ⟨branches, hbranches, hfollows⟩ := h.obeys.moves he hmoves
      refine hplayer _ (h.obeys.position he) hopen branches hbranches ?_
      rintro rfl
      cases hfollows
      simp [hmoves] at hsome

end Tracing

/-! ## Ticks -/

omit [Position π υ] [Score υ] in
/-- The evaluation that the next tick goes on with, and the engine. -/
def current (s : Session π υ) : Evaluation υ × Engine π υ := (s.evaluation.getD (Evaluation.ofRoot s.root), s.engine)

/-- An evaluation that is at its end has come all the way from the root. -/
theorem Tracing.follows_to_end {root : Nat} {s : Session π υ} (h : Tracing rules G root start s.current)
    (hend : s.current.1 = ⟨none, []⟩) : Evaluation.Follows root start s.engine.tree ⟨none, []⟩ :=
  hend ▸ h.follows

/-- A session is ready to evaluate its tree when that has been expanded. -/
theorem tracing_settled {s : Session π υ} {before : Tree π υ} (hgrown : Grown rules G before s.engine)
    (hlive : ∃ e, before.entry? s.root = some e) (hfollows : Evaluation.Follows s.root start before s.current.1) :
    Tracing rules G s.settled.2.root (if s.settled.1 then fun _ => none else start) s.settled.2.current := by
  obtain ⟨e, he⟩ := hlive
  obtain ⟨e', he', _⟩ := hgrown.grows.stays he
  unfold settled Engine.takeGrown
  cases hflag : s.engine.grown with
  | true =>
      -- What was written down before is forgotten, so nothing is carried over.
      obtain ⟨hstep, hsame⟩ := Tree.resetUtilities_spec hgrown.inStep
      obtain ⟨e₁, he₁, _⟩ := hsame.there.entry he'
      have hforgotten := Evaluation.utility?_resetUtilities s.engine.tree
      exact ⟨hstep, hgrown.obeys.sameMoves hsame, rfl, ⟨e₁, he₁⟩, hforgotten ▸ .ofRoot (hforgotten ▸ .none)⟩
  | false =>
      have htree := hgrown.same hflag
      exact ⟨hgrown.inStep, hgrown.obeys, rfl, ⟨e', he'⟩, htree ▸ hfollows⟩

/-- The evaluation that a tick goes on with, once the tree has been expanded. -/
theorem tracing_between (hwithin : rules.Within G) (expansionTime evaluationTime : Nat) {s : Session π υ}
    (h : Tracing rules G s.root start s.current) :
    let between := (s.expanded rules expansionTime).settled.2
    Tracing rules G between.root ((Call.tick expansionTime evaluationTime).carried rules s start) between.current := by
  exact tracing_settled (s := s.expanded rules expansionTime) (grown_expanded hwithin expansionTime h.inStep h.obeys) h.live
    h.follows

/-- **A tick goes on with the evaluation**, and has come to its end when it says so. -/
theorem tracing_tick (hwithin : rules.Within G) (expansionTime evaluationTime : Nat) {s : Session π υ}
    (h : Tracing rules G s.root start s.current) :
    let s' := (tick rules expansionTime evaluationTime s).2
    Tracing rules G s'.root ((Call.tick expansionTime evaluationTime).carried rules s start) s'.current ∧
      ((tick rules expansionTime evaluationTime s).1.evaluationDone = true → s'.current.1 = ⟨none, []⟩) := by
  have hbetween := tracing_between hwithin expansionTime evaluationTime h
  have hdone := (tick_eq rules expansionTime evaluationTime s).1
  have hjudging : Tracing rules G _ _ (s.evaluating rules expansionTime evaluationTime).state :=
    Slice.run_keeps (fun _ hs => hs.step) evaluationTime hbetween
  intro s'
  refine ⟨hjudging.highlight _, fun hended => ?_⟩
  obtain ⟨s₁, hs₁, hnone⟩ := Slice.run_done (fun _ hs => Tracing.step hs) evaluationTime hbetween
    (isDone_iff.mp (hdone ▸ hended))
  have hlast := hs₁.ended hnone
  exact hlast

/-! ## Other roots -/

/-- Another position becomes the root; where it is not the same, a new evaluation begins with all that is written down. -/
theorem tracing_setRoot {p : π} (hp : p ∈ G) {s : Session π υ} (h : Tracing rules G s.root start s.current) :
    Tracing rules G ((setRoot p).after s).root ((Call.setRoot p).carried rules s start) ((setRoot p).after s).current := by
  obtain ⟨slot, tree, hset, hstep, hlive, hjoins⟩ := Tree.setRoot_spec (t := s.engine.tree) h.inStep p
  have hretains : Retains s.engine.tree { tree with root := slot } := (Retains.of_joins hjoins).withRoot slot
  have hobeys : Tree.Obeys rules G { tree with root := slot } :=
    (h.obeys.joins hjoins fun q hq => hq ▸ hp).withRoot slot
  have hjoined : tree.utility? = s.engine.tree.utility? := Evaluation.utility?_joins hjoins
  have hnotes : Tree.utility? { tree with root := slot } = s.engine.tree.utility? := hjoined
  have hfollows := h.follows.retained hretains hnotes
  by_cases hroot : slot = s.root
  · have hafter := after_setRoot_of_same hset hroot
    rw [Call.carried, hafter, if_pos rfl]
    exact ⟨hstep, hobeys, h.grown, hroot ▸ hlive, hfollows⟩
  · have hafter := after_setRoot_of_other hset hroot
    rw [Call.carried, hafter, if_neg hroot]
    exact ⟨hstep, hobeys, h.grown, hlive, hnotes ▸ .ofRoot hfollows.underway.right⟩

/-- Nothing is known yet of a game that was not looked into. -/
theorem tracing_ofEngine (hwithin : rules.Within G) {fresh : Engine π υ} (hfresh : Engine.ofRules rules = .ok fresh)
    (depth : Nat) (configuration : Configuration) :
    Tracing rules G (ofEngine fresh depth configuration).root (fun _ => none) (ofEngine fresh depth configuration).current := by
  obtain ⟨p, hp, rfl⟩ := Engine.ofRules_spec hfresh
  obtain ⟨hstep, hroot, hall⟩ := Tree.ofRoot_spec (υ := υ) p
  have hnone : Tree.utility? (Tree.ofRoot p : Tree π υ) = fun _ => none := by
    funext slot
    cases he : Tree.entry? (Tree.ofRoot p : Tree π υ) slot with
    | none => simp [Tree.utility?, he]
    | some e => simp [Tree.utility?, he, hall he]
  exact ⟨hstep, .ofRoot (hwithin.initial hp), rfl, ⟨_, hroot⟩, hnone ▸ .ofRoot (hnone ▸ .none)⟩

theorem tracing_runAll (hwithin : rules.Within G) {calls : List (Call π)} (hcalls : ∀ p, .setRoot p ∈ calls → p ∈ G)
    {s : Session π υ} (h : Tracing rules G s.root start s.current) :
    Tracing rules G (runAll rules calls s).root (carriedAll rules calls s start) (runAll rules calls s).current := by
  induction calls generalizing s start with
  | nil => exact h
  | cons call rest ih =>
      have hfirst : Tracing rules G (call.run rules s).root (call.carried rules s start) (call.run rules s).current := by
        cases call with
        | tick expansionTime evaluationTime => exact (tracing_tick hwithin expansionTime evaluationTime h).1
        | setRoot p => exact tracing_setRoot (hcalls p List.mem_cons_self) h
      exact ih (fun p hp => hcalls p (List.mem_cons_of_mem call hp)) hfirst

/-! ## Ticks with the time that they need -/

/-- Without a limit to its steps, the evaluation of a tick takes them as any evaluation does. -/
theorem evaluationStep_of_unlimited {s : Evaluation υ × Engine π υ} (h : s.2.steps = .unlimited) :
    evaluationStep s = Evaluation.step s ∧ (Evaluation.step.after s).2.steps = .unlimited := by
  obtain ⟨ev, tree, expansions, steps, grown⟩ := s
  obtain rfl : steps = .unlimited := h
  unfold evaluationStep Edit.after Evaluation.step
  dsimp only
  cases Evaluation.seek tree ev with
  | mk found ev' =>
      cases found with
      | error err => exact ⟨rfl, rfl⟩
      | ok found => cases found <;> exact ⟨rfl, rfl⟩

theorem run_of_unlimited (time : Nat) {s : Evaluation υ × Engine π υ} (h : s.2.steps = .unlimited) :
    Slice.run (fun (_, e) => e.steps.isExhausted) evaluationStep time s = Slice.run (fun _ => false) Evaluation.step time s := by
  induction time generalizing s with
  | zero => rfl
  | succ time ih =>
      obtain ⟨hsame, hstays⟩ := evaluationStep_of_unlimited h
      have hleft : ¬ s.2.steps.isExhausted = true := by simp [h, Budget.isExhausted]
      rw [Slice.run, Slice.run, if_neg hleft, if_neg Bool.false_ne_true, hsame]
      cases hstep : Evaluation.step s with
      | error err s' => rfl
      | ok found s' =>
          cases found with
          | none => rfl
          | some v =>
              dsimp only
              rw [ih (Edit.after_ok hstep ▸ hstays)]

omit [Score υ] in
/-- The expansion of a tick takes nothing out of the budget of its evaluation. -/
theorem steps_expanded (hwithin : rules.Within G) (expansionTime : Nat) {s : Session π υ} (hstep : s.engine.tree.InStep)
    (hobeys : s.engine.tree.Obeys rules G) : (s.expanded rules expansionTime).engine.steps = s.configuration.maxSteps := by
  have hkeeps : ∀ s' : Deepening × Engine π υ,
      Grown rules G s.engine.tree s'.2 ∧ s'.2.steps = s.configuration.maxSteps →
        Grown rules G s.engine.tree ((Deepening.step rules).after s').2 ∧
          ((Deepening.step rules).after s').2.steps = s.configuration.maxSteps := by
    rintro s' ⟨hgrown, hsteps⟩
    refine ⟨hgrown.step hwithin, ?_⟩
    have hexpand : ∀ slot, ((Engine.expandNode rules slot).after s'.2).steps = s.configuration.maxSteps := by
      intro slot
      have houtcome := Engine.expandNode_outcome rules slot hgrown.inStep
      rw [Engine.after_eq_engine]
      generalize Engine.expandNode rules slot s'.2 = r at houtcome
      cases houtcome <;> exact hsteps
    have hstepped := Deepening.step_stepped rules s'
    unfold Edit.after
    generalize Deepening.step rules s' = r at hstepped
    cases hstepped with
    | finished => exact hsteps
    | failed _ hfails => exact Edit.after_error hfails ▸ hexpand _
    | expanded _ hopens => exact Edit.after_ok hopens ▸ hexpand _
  exact (Slice.run_keeps (P := fun s' : Deepening × Engine π υ =>
    Grown rules G s.engine.tree s'.2 ∧ s'.2.steps = s.configuration.maxSteps) hkeeps expansionTime
      ⟨⟨hstep, hobeys, .refl _, fun _ => rfl⟩, rfl⟩).2

/-- **A tick that has the time comes to the end of its evaluation**, if there is no limit to its steps. -/
theorem tick_ends (hwithin : rules.Within G) (hplayer : Peopled rules G) {s : Session π υ}
    (h : Tracing rules G s.root start s.current) (hlimit : s.configuration.maxSteps = .unlimited) (expansionTime : Nat) :
    ∃ enough, ∀ evaluationTime, enough ≤ evaluationTime →
      (tick rules expansionTime evaluationTime s).1.evaluationDone = true := by
  have hsteps := (steps_expanded hwithin expansionTime h.inStep h.obeys).trans hlimit
  have hunlimited : (s.expanded rules expansionTime).settled.2.current.2.steps = .unlimited := by
    rw [← hsteps]
    unfold settled Engine.takeGrown
    cases (s.expanded rules expansionTime).engine.grown <;> rfl
  have hbetween := tracing_between hwithin expansionTime 0 h
  obtain ⟨results, last, e', hpulls, hlast, _⟩ := Evaluation.comes_to_end hbetween.follows
    fun slot hreached => hbetween.answers hplayer hreached
  refine ⟨results.length + 1, fun evaluationTime hlong => ?_⟩
  have hrun := (run_of_unlimited evaluationTime hunlimited).trans (hpulls.run_to_end rfl hlast hlong)
  rw [(tick_eq rules expansionTime evaluationTime s).1, isDone_iff]
  exact congrArg Slice.ending hrun

/-! ## A fresh search -/

/-- The evaluation of a tree from one of its positions, with nothing known, for some time. -/
def freshSearch (e : Engine π υ) (root time : Nat) : Slice (Evaluation υ × Engine π υ) (Verdict υ) :=
  Slice.run (fun _ => false) Evaluation.step time (Evaluation.ofRoot root, { e with tree := e.tree.resetUtilities })

/-- A fresh search comes to its end. -/
theorem freshSearch_ends (hplayer : Peopled rules G) {root : Nat} {s : Session π υ}
    (h : Tracing rules G root start s.current) :
    ∃ (enough : Nat) (notes : Nat → Option υ),
      ReflTransGen (Evaluation.Goes (Evaluation.approach s.engine.tree)) (Evaluation.ofRoot root, fun _ => none) (⟨none, []⟩, notes) ∧
      ∀ time, enough ≤ time → (freshSearch s.engine root time).ending = .done ∧
        (freshSearch s.engine root time).state.2.tree.utility? = notes := by
  have hsame := (Tree.resetUtilities_spec (t := s.engine.tree) h.inStep).2
  have happroach := Evaluation.approach_of_sameMoves hsame
  have hforgotten := Evaluation.utility?_resetUtilities s.engine.tree
  have hbegin : Evaluation.Follows root (fun _ => none) s.engine.tree.resetUtilities (Evaluation.ofRoot root) := by
    rw [← hforgotten]
    exact .ofRoot (hforgotten ▸ .none)
  obtain ⟨results, last, e', hpulls, hlast, hkept, hend⟩ := Evaluation.comes_to_end
    (e := { s.engine with tree := s.engine.tree.resetUtilities }) hbegin fun slot hreached => by
      rw [happroach] at hreached ⊢
      exact h.answers hplayer hreached
  have hgoes := hend.goes
  rw [hkept, happroach] at hgoes
  refine ⟨results.length + 1, e'.tree.utility?, hgoes, fun time hlong => ?_⟩
  rw [freshSearch, hpulls.run_to_end rfl hlast hlong]
  exact ⟨rfl, rfl⟩

/-- **Evaluations after a change of root.** Take any game, with cycles or without, in which there is a player wherever
the game goes on, and a session that has begun with nothing known of it. After any ticks and changes of the root, let a
tick say that the evaluation is done. Then the worth of the root is known; a fresh search of the same tree, with
nothing known, comes to its end and finds a worth of the root as well; and the two are the same, unless the root leads
to a position whose worth was carried over from an earlier root and from which a line leads into a cycle. -/
theorem fresh_search_agrees (hwithin : rules.Within G) (hplayer : Peopled rules G) {fresh : Engine π υ}
    (hfresh : Engine.ofRules rules = .ok fresh) (depth : Nat) (configuration : Configuration) (calls : List (Call π))
    (hcalls : ∀ p, .setRoot p ∈ calls → p ∈ G) (expansionTime evaluationTime : Nat) :
    let before := runAll rules calls (ofEngine fresh depth configuration)
    let s := (tick rules expansionTime evaluationTime before).2
    let t := s.engine.tree
    let carried := carriedAll rules (calls ++ [.tick expansionTime evaluationTime]) (ofEngine fresh depth configuration)
      fun _ => none
    (tick rules expansionTime evaluationTime before).1.evaluationDone = true →
      ∃ u u' enough, t.utility? s.root = some u ∧
        (∀ time, enough ≤ time → (freshSearch s.engine s.root time).ending = .done ∧
          (freshSearch s.engine s.root time).state.2.tree.utility? s.root = some u') ∧
        ((∀ slot, (carried slot).isSome = true → ReflTransGen t.Reply s.root slot → t.Clear slot) → u = u') := by
  intro before s t carried hdone
  have hbefore := tracing_runAll hwithin hcalls (tracing_ofEngine hwithin hfresh depth configuration)
  obtain ⟨htracing, hended⟩ := tracing_tick hwithin expansionTime evaluationTime hbefore
  rw [← carriedAll_append] at htracing
  have hfollows := htracing.follows_to_end (hended hdone)
  obtain ⟨enough, notes, hgoes, hends⟩ := freshSearch_ends hplayer htracing
  obtain ⟨u, hu⟩ := hfollows.underway.root_noted
  obtain ⟨u', hu'⟩ := ((Evaluation.Underway.fresh .none).goes hgoes).root_noted
  refine ⟨u, u', enough, hu, fun time hlong => ?_, fun hclear => ?_⟩
  · obtain ⟨hending, hnotes⟩ := hends time hlong
    exact ⟨hending, (congrFun hnotes s.root).trans hu'⟩
  · have hroot := Evaluation.same_at_root hfollows.right .none (fun slot hreached hcycles => ?_) hfollows.goes hgoes
    · exact Option.some.inj (hu.symm.trans (hroot.trans hu'))
    · -- What was carried over is clear, so it is no matter for cycles.
      show carried slot = none
      rw [← Option.not_isSome_iff_eq_none]
      intro hcarried
      have hreplies := ReflTransGen.mono (fun _ _ => Evaluation.reply_of_onward) _ _ hreached
      exact hcycles (Evaluation.clear_of_tree (hclear slot hcarried hreplies))

/-- A change of the root does not change what the session is set to. -/
theorem configuration_runAll (calls : List (Call π)) (s : Session π υ) :
    (runAll rules calls s).configuration = s.configuration := by
  induction calls generalizing s with
  | nil => rfl
  | cons call rest ih =>
      have hfirst : (call.run rules s).configuration = s.configuration := by
        cases call with
        | tick expansionTime evaluationTime => exact configuration_settled _
        | setRoot p =>
            show ((setRoot p).after s).configuration = _
            unfold Edit.after setRoot
            cases Tree.setRoot p s.engine.tree with
            | error err tree => rfl
            | ok root tree =>
                by_cases hroot : root = s.root <;> simp [hroot]
      exact (ih _).trans hfirst

theorem peopled_twoPly : Peopled (Table.twoPly.rules none) {p | p ∈ Table.twoPly.places} := by
  intro p hp hopen bs hbs hsome
  have hp : p ∈ Table.twoPly.places := hp
  simp only [Table.twoPly, List.mem_cons, List.not_mem_nil, or_false] at hp
  rcases hp with rfl | rfl | rfl | rfl | rfl <;> first | rfl | cases hopen

/-- In a game without cycles another root makes no difference. -/
theorem fresh_search_agrees_sample :
    let rules := Table.twoPly.rules none
    let left : Place := ⟨"left", "left", some .min, false, 0.0, some 0.5,
      [[("to", .text "lost")], [("to", .text "even")]]⟩
    ∃ (fresh : Engine Place Float) (time : Nat), Engine.ofRules rules = .ok fresh ∧
      let before := runAll rules [.tick 9 1, .setRoot left] (ofEngine fresh 1 {})
      let s := (tick rules 0 time before).2
      (tick rules 0 time before).1.evaluationDone = true ∧
      ∃ u enough, s.engine.tree.utility? s.root = some u ∧
        ∀ time, enough ≤ time → (freshSearch s.engine s.root time).state.2.tree.utility? s.root = some u := by
  intro rules left
  obtain ⟨fresh, hfresh⟩ : ∃ fresh : Engine Place Float, Engine.ofRules rules = .ok fresh := ⟨_, rfl⟩
  have hwithin : rules.Within {p | p ∈ Table.twoPly.places} := Table.twoPly.within none
  have hplayer : Peopled rules {p | p ∈ Table.twoPly.places} := peopled_twoPly
  have hcalls : ∀ p, Call.setRoot p ∈ [Call.tick 9 1, .setRoot left] → p ∈ {p | p ∈ Table.twoPly.places} := by
    simp [left, Table.twoPly]
  have htracing := tracing_runAll hwithin hcalls (tracing_ofEngine hwithin hfresh 1 {})
  have hlimit : (runAll rules [.tick 9 1, .setRoot left] (ofEngine fresh 1 {})).configuration.maxSteps = .unlimited := by
    rw [configuration_runAll]
    rfl
  obtain ⟨time, hends⟩ := tick_ends hwithin hplayer htracing hlimit 0
  refine ⟨fresh, time, hfresh, hends time (Nat.le_refl time), ?_⟩
  obtain ⟨u, u', enough, hu, hu', hsame⟩ := fresh_search_agrees hwithin hplayer hfresh 1 {} _ hcalls 0 time
    (hends time (Nat.le_refl time))
  obtain ⟨hlast, _⟩ := tracing_tick hwithin 0 time htracing
  have hclear : ∀ slot, Tree.Clear (tick rules 0 time (runAll rules [.tick 9 1, .setRoot left] (ofEngine fresh 1 {}))).2.engine.tree slot :=
    fun _ y _ => hlast.obeys.acyclic hlast.inStep Table.twoPly_acyclic y
  obtain rfl := hsame fun slot _ _ => hclear slot
  exact ⟨u, enough, hu, fun time hlong => (hu' time hlong).2⟩

/-! ## A circle -/

/-- A game that goes round in circles until it is won. -/
def circle : Table where
  initial := some "start"
  places :=
    let move (key : String) : Action := [("to", .text key)]
    [ ⟨"start", "start", some .max, false, 0.0, none, [move "left", move "right", move "won"]⟩,
      ⟨"left", "left", some .max, false, 0.0, none, [move "start"]⟩,
      ⟨"right", "right", some .max, false, 0.0, none, [move "left"]⟩,
      ⟨"won", "won", none, true, 1.0, none, []⟩ ]

namespace circle

theorem peopled : Peopled (circle.rules none) {p | p ∈ circle.places} := by
  intro p hp hopen bs hbs hsome
  have hp : p ∈ circle.places := hp
  simp only [circle, List.mem_cons, List.not_mem_nil, or_false] at hp
  rcases hp with rfl | rfl | rfl | rfl <;> first | rfl | cases hopen

/-- How the four positions are approached. -/
structure Drawn (look : Nat → Except Error (Evaluation.Approach Float)) (start left right won : Nat) : Prop where
  atStart : ∃ m₁ m₂ m₃, look start = .ok (.inner .max [m₁, m₂, m₃]) ∧ m₁.slot = left ∧ m₂.slot = right ∧ m₃.slot = won
  atLeft : ∃ m, look left = .ok (.inner .max [m]) ∧ m.slot = start
  atRight : ∃ m, look right = .ok (.inner .max [m]) ∧ m.slot = left
  atWon : look won = .ok (.leaf 1.0)
  distinct : [start, left, right, won].Nodup

variable {look : Nat → Except Error (Evaluation.Approach Float)} {start left right won : Nat}

theorem Drawn.apart (h : Drawn look start left right won) :
    (start ≠ left ∧ start ≠ right ∧ start ≠ won) ∧ (left ≠ right ∧ left ≠ won) ∧ right ≠ won := by
  simpa using h.distinct

open Evaluation in
/-- From the start, the position on the left leads back into the line. -/
theorem from_start (h : Drawn look start left right won) :
    ∃ notes, ReflTransGen (Goes look) (ofRoot start, fun _ => none) (⟨none, []⟩, notes) ∧ notes left = some 0.0 := by
  obtain ⟨m₁, m₂, m₃, hstart, rfl, rfl, rfl⟩ := h.atStart
  obtain ⟨m₄, hleft, rfl⟩ := h.atLeft
  obtain ⟨m₅, hright, hm₅⟩ := h.atRight
  obtain ⟨⟨h₁, h₂, h₃⟩, ⟨h₄, h₅⟩, h₆⟩ := h.apart
  have hwon := h.atWon
  refine ⟨_, .head (.turn (.enterRoot hstart)) <|
    .head (.turn (.enter rfl rfl (by simp [isOnLine, h₁]) hleft)) <|
    .head (.turn (.back rfl rfl (by simp [isOnLine]))) <|
    .head (.turn (.close (Frame.moves_absorb ..))) <|
    .head (.turn (.known rfl (Function.update_self _ _ _))) <|
    .head (.turn (.enter (Frame.moves_absorb ..) (by simp [noted, Frame.verdict, h₄.symm]) (by simp [isOnLine, h₂]) hright)) <|
    .head (.turn (.known rfl (by simp [noted, hm₅, Frame.verdict]; rfl))) <|
    .head (.turn (.close (Frame.moves_absorb ..))) <|
    .head (.turn (.known (Frame.moves_absorb ..) (Function.update_self _ _ _))) <|
    .head (.turn (.leaf (Frame.moves_absorb ..) (by simp [noted, Frame.verdict, h₅.symm, h₆.symm]) (by simp [isOnLine, h₃]) hwon)) <|
    .head (.turn (.known (Frame.moves_absorb ..) (Function.update_self _ _ _))) <|
    .head (.turn (.close (Frame.moves_absorb ..))) <|
    .refl, ?_⟩
  simp [noted, Frame.verdict, h₁.symm, h₄, h₅]
  rfl

open Evaluation in
/-- From the right, what was found of the left is taken as it is. -/
theorem from_right (h : Drawn look start left right won) {notes : Nat → Option Float} (hnotes : notes left = some 0.0) :
    ∃ notes', ReflTransGen (Goes look) (ofRoot right, notes) (⟨none, []⟩, notes') ∧ notes' right = some 0.0 := by
  obtain ⟨m, hright, rfl⟩ := h.atRight
  refine ⟨_, .head (.turn (.enterRoot hright)) <| .head (.turn (.known rfl hnotes)) <| .head (.turn (.close (Frame.moves_absorb ..))) .refl, ?_⟩
  exact Function.update_self _ _ _

open Evaluation in
/-- From the right, with nothing known, the line comes to the start, and from there the game can be won. -/
theorem from_right_fresh (h : Drawn look start left right won) :
    ∃ notes, ReflTransGen (Goes look) (ofRoot right, fun _ => none) (⟨none, []⟩, notes) ∧ notes right = some 1.0 := by
  obtain ⟨m₁, m₂, m₃, hstart, rfl, rfl, rfl⟩ := h.atStart
  obtain ⟨m₄, hleft, rfl⟩ := h.atLeft
  obtain ⟨m₅, hright, hm₅⟩ := h.atRight
  obtain ⟨⟨h₁, h₂, h₃⟩, ⟨h₄, h₅⟩, h₆⟩ := h.apart
  refine ⟨_, .head (.turn (.enterRoot hright)) <|
    .head (.turn (.enter rfl rfl (by simp [isOnLine, hm₅, h₄.symm]) (hm₅.symm ▸ hleft))) <|
    .head (.turn (.enter rfl rfl (by simp [isOnLine, hm₅, h₁.symm, h₂.symm]) hstart)) <|
    .head (.turn (.back rfl rfl (by simp [isOnLine, hm₅]))) <|
    .head (.turn (.back (Frame.moves_absorb ..) rfl (by simp [isOnLine]))) <|
    .head (.turn (.leaf (Frame.moves_absorb ..) rfl (by simp [isOnLine, hm₅, h₃, h₅, h₆]) h.atWon)) <|
    .head (.turn (.known (Frame.moves_absorb ..) (Function.update_self _ _ _))) <|
    .head (.turn (.close (Frame.moves_absorb ..))) <|
    .head (.turn (.known rfl (by simp [noted, Frame.verdict]; rfl))) <|
    .head (.turn (.close (Frame.moves_absorb ..))) <|
    .head (.turn (.known rfl (by simp [noted, Frame.verdict]; rfl))) <|
    .head (.turn (.close (Frame.moves_absorb ..))) <|
    .refl, ?_⟩
  simp [noted, Frame.verdict]
  rfl

theorem place_of_id : ∀ p ∈ circle.places, ∀ q ∈ circle.places, p.id = q.id → p = q :=
  fun _ hp _ hq => List.inj_on_of_nodup_map (f := Place.id) (by simp [circle]) hp hq

theorem branches_eq :
    (circle.rules none).branches circle.places[0] = .ok [([("to", .text "left")], circle.places[1]),
      ([("to", .text "right")], circle.places[2]), ([("to", .text "won")], circle.places[3])] ∧
    (circle.rules none).branches circle.places[1] = .ok [([("to", .text "start")], circle.places[0])] ∧
    (circle.rules none).branches circle.places[2] = .ok [([("to", .text "left")], circle.places[1])] :=
  ⟨rfl, rfl, rfl⟩

/-- The start is expanded first: then the other positions are there as well. -/
theorem first_expansion {e : Engine Place Float} {start : Nat} (h : e.tree.InStep) (hunlimited : e.expansions = .unlimited)
    (hstart : e.tree.entry? start = some { position := circle.places[0] })
    (hall : ∀ {slot entry}, e.tree.entry? slot = some entry → entry = { position := circle.places[0] }) :
    ∃ x e' m₁ m₂ m₃, Deepening.step (circle.rules none) (Deepening.ofRoot start 2, e) =
        .ok (some x) ((Deepening.ofRoot start 2).opened [m₁.slot, m₂.slot, m₃.slot], e') ∧
      e'.tree.InStep ∧ e'.expansions = .unlimited ∧
      e'.tree.entry? start = some { position := circle.places[0], moves := some [m₁, m₂, m₃] } ∧
      e'.tree.entry? m₁.slot = some { position := circle.places[1] } ∧
      e'.tree.entry? m₂.slot = some { position := circle.places[2] } ∧
      e'.tree.entry? m₃.slot = some { position := circle.places[3] } := by
  have hnew : ∀ id, id ≠ "start" → e.tree.graph.slot? id = none := by
    intro id hid
    cases hslot : e.tree.graph.slot? id with
    | none => rfl
    | some slot =>
        obtain ⟨entry, he, rfl⟩ := (h.lookup _ _).mp hslot
        rw [hall he] at hid
        exact absurd rfl hid
  have hseek : (Deepening.ofRoot start 2).seek (Deepening.isInner e.tree) = (some start, Deepening.ofRoot start 2) :=
    Deepening.seek_of_open rfl (by simp [Deepening.isInner, Tree.position?, hstart, Deepening.ofRoot]; rfl)
  obtain ⟨x, e', hstep, h', hleft, hopens⟩ := Deepening.step_opens h hunlimited hseek hstart rfl branches_eq.1
  obtain ⟨m₁, _, ⟨_, hid₁⟩, hrest₁, hmoves⟩ := List.forall₂_cons_left_iff.mp hopens.follows
  obtain ⟨m₂, _, ⟨_, hid₂⟩, hrest₂, rfl⟩ := List.forall₂_cons_left_iff.mp hrest₁
  obtain ⟨m₃, _, ⟨_, hid₃⟩, hrest₃, rfl⟩ := List.forall₂_cons_left_iff.mp hrest₂
  obtain rfl := List.forall₂_nil_left_iff.mp hrest₃
  rw [hmoves] at hstep hopens
  have hplace : ∀ m ∈ [m₁, m₂, m₃], ∀ q ∈ circle.places, m.id = Place.id q → m.id ≠ "start" →
      e'.tree.entry? m.slot = some { position := q } := by
    intro m hm q hq hid hstart'
    obtain ⟨b, hb, he, hsame⟩ := hopens.entry_of_new h h' hstart hm (hnew m.id hstart')
    obtain rfl : b.2 = q := place_of_id _ ((circle.within none).branches (by simp [circle]) branches_eq.1 b hb) _ hq (hsame.trans hid)
    exact he
  refine ⟨x, e', m₁, m₂, m₃, hstep, h', hleft, hopens.own hstart, ?_, ?_, ?_⟩
  · exact hplace m₁ (by simp) _ (by simp) hid₁ (by rw [hid₁]; decide)
  · exact hplace m₂ (by simp) _ (by simp) hid₂ (by rw [hid₂]; decide)
  · exact hplace m₃ (by simp) _ (by simp) hid₃ (by rw [hid₃]; decide)

/-- A position with one branch is expanded to one move; where that leads to a position that is there, no other joins. -/
theorem single_expansion {d d' : Deepening} {e : Engine Place Float} {slot target : Nat} {p : Place} {action : Action}
    {there : Entry Place Float} (h : e.tree.InStep) (hunlimited : e.expansions = .unlimited)
    (hseek : d.seek (Deepening.isInner e.tree) = (some slot, d')) (hentry : e.tree.entry? slot = some { position := p })
    (hbranches : (circle.rules none).branches p = .ok [(action, there.position)])
    (hthere : e.tree.entry? target = some there) (hne : target ≠ slot) :
    ∃ x e' m, Deepening.step (circle.rules none) (d, e) = .ok (some x) (d'.opened [target], e') ∧
      e'.tree.InStep ∧ e'.expansions = .unlimited ∧ m.slot = target ∧
      e'.tree.entry? slot = some { position := p, moves := some [m] } ∧
      ∀ {other entry}, other ≠ slot → e.tree.entry? other = some entry → e'.tree.entry? other = some entry := by
  obtain ⟨x, e', hstep, h', hleft, hopens⟩ := Deepening.step_opens h hunlimited hseek hentry rfl hbranches
  obtain ⟨m, _, ⟨_, hid⟩, hrest, hmoves⟩ := List.forall₂_cons_left_iff.mp hopens.follows
  obtain rfl := List.forall₂_nil_left_iff.mp hrest
  rw [hmoves] at hstep hopens
  have hslot : m.slot = target := by
    have htarget := h'.targets (hopens.own hentry) rfl m List.mem_cons_self
    rw [hid, h'.slot?_id (hopens.others hne hthere)] at htarget
    exact (Option.some.inj htarget).symm
  rw [List.map_singleton, hslot] at hstep
  exact ⟨x, e', m, hstep, h', hleft, hslot, hopens.own hentry, hopens.others⟩

/-- With two levels to go, the search turns to the right when it has come back to the start. -/
theorem third_seek (start left won : Nat) {isInner : Nat → Bool} (hright : isInner right = true) :
    Deepening.seek isInner ⟨start, 2, 2, none, [⟨left, 1, some [start]⟩, ⟨start, 0, some [right, won]⟩]⟩ =
      (some right, ⟨start, 2, 2, none, [⟨right, 1, none⟩, ⟨start, 0, some [won]⟩]⟩) := by
  rw [Deepening.seek_of_child rfl, Deepening.seek_of_closed rfl (by simp), Deepening.seek_of_through rfl,
    Deepening.seek_of_child rfl]
  exact Deepening.seek_of_open rfl (by simp [hright])

/-- Three expansions draw the circle. -/
theorem expanded {e : Engine Place Float} {start : Nat} (h : e.tree.InStep) (hunlimited : e.expansions = .unlimited)
    (hstart : e.tree.entry? start = some { position := circle.places[0] })
    (hall : ∀ {slot entry}, e.tree.entry? slot = some entry → entry = { position := circle.places[0] }) :
    ∃ t left right won, (Slice.run Deepening.isSpent (Deepening.step (circle.rules none)) 3
        (Deepening.ofRoot start 2, e)).state.2.tree = t ∧
      t.InStep ∧ Drawn (Evaluation.approach t) start left right won ∧ t.graph.slot? "right" = some right := by
  obtain ⟨x₁, e₁, m₁, m₂, m₃, hstep₁, h₁, hleft₁, hstart₁, hl₁, hr₁, hw₁⟩ := first_expansion h hunlimited hstart hall
  have hinner : ∀ {t : Tree Place Float} {slot : Nat} {entry : Entry Place Float}, t.entry? slot = some entry →
      entry.position.isTerminal = false → Deepening.isInner t slot = true := by
    intro t slot entry he hopen
    simp [Deepening.isInner, Tree.position?, he, Position.isTerminal, hopen]
  -- The next to come is the position on the left, which leads back to the start.
  have hseek₂ : ((Deepening.ofRoot start 2).opened [m₁.slot, m₂.slot, m₃.slot]).seek (Deepening.isInner e₁.tree) =
      (some m₁.slot, { root := start, limit := 2, found := 1, stack := [⟨m₁.slot, 1, none⟩, ⟨start, 0, some [m₂.slot, m₃.slot]⟩] }) := by
    rw [Deepening.seek_of_child rfl]
    exact Deepening.seek_of_open rfl (by simp [hinner hl₁ rfl, Deepening.opened, Deepening.ofRoot])
  -- Four positions in four slots.
  have hother : ∀ {t : Tree Place Float} {a b : Nat} {entry entry' : Entry Place Float}, t.entry? a = some entry →
      t.entry? b = some entry' → entry.position.key ≠ entry'.position.key → a ≠ b := by
    rintro t a _ entry entry' ha hb hkey rfl
    exact hkey (congrArg (fun entry => entry.position.key) (Option.some.inj (ha.symm.trans hb)))
  have hne₁ := hother hstart₁ hl₁ (by simp [circle])
  have hne₂ := hother hr₁ hl₁ (by simp [circle])
  have hne₃ := hother hw₁ hl₁ (by simp [circle])
  have hne₄ := hother hstart₁ hr₁ (by simp [circle])
  have hne₅ := hother hw₁ hr₁ (by simp [circle])
  have hne₆ := hother hstart₁ hw₁ (by simp [circle])
  obtain ⟨x₂, e₂, m₄, hstep₂, h₂, hleft₂, hslot₄, hl₂, hothers₂⟩ :=
    single_expansion h₁ hleft₁ hseek₂ hl₁ branches_eq.2.1 hstart₁ hne₁
  have hr₂ := hothers₂ hne₂ hr₁
  -- The last is the one on the right, which leads to the left.
  have hseek₃ := third_seek start m₁.slot m₃.slot (hinner hr₂ rfl)
  obtain ⟨x₃, e₃, m₅, hstep₃, h₃, hleft₃, hslot₅, hr₃, hothers₃⟩ :=
    single_expansion h₂ hleft₂ hseek₃ hr₂ branches_eq.2.2 hl₂ hne₂.symm
  have hstart₃ := hothers₃ hne₄ (hothers₂ hne₁ hstart₁)
  have hl₃ := hothers₃ hne₂.symm hl₂
  have hw₃ := hothers₃ hne₅ (hothers₂ hne₃ hw₁)
  have hpulls : Slice.Pulls Deepening.isSpent (Deepening.step (circle.rules none)) (Deepening.ofRoot start 2, e) [x₁, x₂, x₃]
      (_, e₃) :=
    .more (Deepening.isSpent_of_unlimited hunlimited) hstep₁ <|
      .more (Deepening.isSpent_of_unlimited hleft₁) hstep₂ <|
        .more (Deepening.isSpent_of_unlimited hleft₂) hstep₃ (.start _)
  have hrun := congrArg (fun slice => slice.state.2.tree) (hpulls.run_add 0)
  refine ⟨e₃.tree, m₁.slot, m₂.slot, m₃.slot, hrun, h₃, ⟨⟨m₁, m₂, m₃, ?_, rfl, rfl, rfl⟩, ⟨m₄, ?_, hslot₄⟩, ⟨m₅, ?_, hslot₅⟩, ?_, ?_⟩, h₃.slot?_id hr₃⟩
  · rw [Evaluation.approach, hstart₃]
    rfl
  · rw [Evaluation.approach, hl₃]
    rfl
  · rw [Evaluation.approach, hr₃]
    rfl
  · rw [Evaluation.approach, hw₃]
    rfl
  · simp [hne₁, hne₄, hne₆, hne₂.symm, hne₃.symm, hne₅.symm]

end circle

theorem circle.expanded_ofEngine {fresh : Engine Place Float} (hfresh : Engine.ofRules (circle.rules none) = .ok fresh) :
    ∃ t left right won, ((ofEngine fresh 2 {}).expanded (circle.rules none) 3).engine.tree = t ∧ t.InStep ∧
      Drawn (Evaluation.approach t) (ofEngine fresh 2 {}).root left right won ∧ t.graph.slot? "right" = some right := by
  obtain ⟨p, hp, rfl⟩ := Engine.ofRules_spec hfresh
  obtain rfl : circle.places[0] = p := Except.ok.inj hp
  obtain ⟨h₀, hroot, hall⟩ := Tree.ofRoot_spec (υ := Float) circle.places[0]
  exact circle.expanded (e := { tree := Tree.ofRoot circle.places[0] }) h₀ rfl hroot hall

theorem root_tick (rules : Rules π) (expansionTime evaluationTime : Nat) (s : Session π υ) :
    (tick rules expansionTime evaluationTime s).2.root = s.root := by
  show (s.expanded rules expansionTime).settled.2.root = s.root
  unfold settled Engine.takeGrown
  cases (s.expanded rules expansionTime).engine.grown <;> rfl

/-- The evaluation of a tick does not change how positions are approached. -/
theorem approach_tick (rules : Rules π) (expansionTime evaluationTime : Nat) {s : Session π υ}
    (h : (s.expanded rules expansionTime).engine.tree.InStep) :
    let t := (tick rules expansionTime evaluationTime s).2.engine.tree
    Tree.Twins (s.expanded rules expansionTime).engine.tree t ∧
      Evaluation.approach t = Evaluation.approach (s.expanded rules expansionTime).engine.tree := by
  obtain ⟨_, htwins⟩ := written_tick rules expansionTime evaluationTime h
  exact ⟨htwins, Evaluation.approach_of_sameMoves ⟨⟨htwins.entry⟩, ⟨htwins.symm.entry⟩⟩⟩

/-- The circle as a tick from the start has left it: on the left, a worth is noted that was cut off by the line. -/
structure circle.Stale (s : Session Place Float) (left right won : Nat) : Prop where
  drawn : Drawn (Evaluation.approach s.engine.tree) s.root left right won
  tracing : Tracing (circle.rules none) {p | p ∈ circle.places} s.root (fun _ => none) s.current
  found : s.engine.tree.graph.slot? "right" = some right
  noted : s.engine.tree.utility? left = some 0.0
  unlimited : s.configuration.maxSteps = .unlimited

theorem circle.first_tick {fresh : Engine Place Float} (hfresh : Engine.ofRules (circle.rules none) = .ok fresh) :
    ∃ first left right won, Stale (tick (circle.rules none) 3 first (ofEngine fresh 2 {})).2 left right won := by
  have hwithin := circle.within none
  have hbegun := tracing_ofEngine hwithin hfresh 2 {}
  obtain ⟨t, left, right, won, ht, hstep, hdrawn, hslot⟩ := circle.expanded_ofEngine hfresh
  obtain ⟨first, hfirst⟩ := tick_ends hwithin peopled hbegun rfl 3
  obtain ⟨htracing, hended⟩ := tracing_tick hwithin 3 first hbegun
  have hroot := root_tick (circle.rules none) 3 first (ofEngine fresh 2 {})
  obtain ⟨htwins, happroach⟩ := approach_tick (circle.rules none) 3 first (s := ofEngine fresh 2 {}) (ht ▸ hstep)
  have hcarried : (Call.tick 3 first).carried (circle.rules none) (ofEngine fresh 2 {}) (fun _ => none) = fun _ => none :=
    ite_self _
  rw [ht] at htwins happroach
  rw [hcarried] at htracing
  rw [← happroach, ← hroot] at hdrawn
  have hgone := (htracing.follows_to_end (hended (hfirst first (Nat.le_refl first)))).goes
  obtain ⟨notes, hgoes, hnotes⟩ := circle.from_start hdrawn
  exact ⟨first, left, right, won, hdrawn, htracing, (htwins.graph.slot? _).trans hslot,
    (congrFun (Evaluation.meet_at_end hgone hgoes) left).trans hnotes, congrArg Configuration.maxSteps (configuration_settled _)⟩

/-- When the session goes on from the right, all that is noted is carried over. -/
theorem circle.Stale.setRoot {s : Session Place Float} {left right won : Nat} (h : Stale s left right won) :
    let s' := (Session.setRoot circle.places[2]).after s
    s'.root = right ∧ Evaluation.approach s'.engine.tree = Evaluation.approach s.engine.tree ∧
      s'.configuration.maxSteps = .unlimited ∧
      Tracing (circle.rules none) {p | p ∈ circle.places} s'.root s.engine.tree.utility? s'.current := by
  have hfound : s.engine.tree.graph.slot? (Position.id circle.places[2]) = some right := h.found
  have hset : Tree.setRoot circle.places[2] s.engine.tree = .ok right { s.engine.tree with root := right } := by
    simp only [Tree.setRoot, Tree.ensureNode, hfound]
  have hother : right ≠ s.root := h.drawn.apart.1.2.1.symm
  have hafter := after_setRoot_of_other hset hother
  have htracing := tracing_setRoot (p := circle.places[2]) (by simp [circle]) h.tracing
  rw [Call.carried, hafter, if_neg hother] at htracing
  rw [hafter]
  exact ⟨rfl, rfl, h.unlimited, htracing⟩

/-- Without the time to expand anything, a tick goes on with the same tree and with what was carried over. -/
theorem circle.second_tick {s : Session Place Float} {start : Nat → Option Float}
    (h : Tracing (circle.rules none) {p | p ∈ circle.places} s.root start s.current)
    (hlimit : s.configuration.maxSteps = .unlimited) :
    ∃ second, let s' := (tick (circle.rules none) 0 second s).2
      (tick (circle.rules none) 0 second s).1.evaluationDone = true ∧ s'.root = s.root ∧
        Evaluation.approach s'.engine.tree = Evaluation.approach s.engine.tree ∧
        Evaluation.Follows s.root start s'.engine.tree ⟨none, []⟩ ∧
        Tracing (circle.rules none) {p | p ∈ circle.places} s.root start s'.current := by
  obtain ⟨second, hends⟩ := tick_ends (circle.within none) peopled h hlimit 0
  have hdone := hends second (Nat.le_refl second)
  have hgrown : (tick (circle.rules none) 0 second s).1.grown = false := by
    show (s.expanded (circle.rules none) 0).settled.1 = false
    have hkept : (s.expanded (circle.rules none) 0).engine.grown = false := h.grown
    simp [settled, Engine.takeGrown, hkept]
  have hcarried : (Call.tick 0 second).carried (circle.rules none) s start = start := by
    rw [Call.carried, hgrown]
    rfl
  obtain ⟨htracing, hended⟩ := tracing_tick (circle.within none) 0 second h
  obtain ⟨_, happroach⟩ := approach_tick (circle.rules none) 0 second (s := s) h.inStep
  rw [hcarried, root_tick] at htracing
  exact ⟨second, hdone, root_tick _ 0 second s, happroach, htracing.follows_to_end (hended hdone), htracing⟩

/-- **A stale worth goes round in a circle.** From the start, the position on the left is worth nothing, as it leads back
into the line; and when the session goes on from the right, that is what is found there. A search of the same tree that
knows nothing finds that the game can be won. -/
theorem fresh_search_differs_on_circle :
    let rules := circle.rules none
    Peopled rules {p | p ∈ circle.places} ∧
    ∃ (fresh : Engine Place Float) (first second enough : Nat), Engine.ofRules rules = .ok fresh ∧
      let before := runAll rules [.tick 3 first, .setRoot circle.places[2]] (ofEngine fresh 2 {})
      let s := (tick rules 0 second before).2
      (tick rules 0 second before).1.evaluationDone = true ∧ s.engine.tree.utility? s.root = some 0.0 ∧
      ∀ time, enough ≤ time → (freshSearch s.engine s.root time).ending = .done ∧
        (freshSearch s.engine s.root time).state.2.tree.utility? s.root = some 1.0 := by
  intro rules
  refine ⟨circle.peopled, ?_⟩
  obtain ⟨fresh, hfresh⟩ : ∃ fresh : Engine Place Float, Engine.ofRules rules = .ok fresh := ⟨_, rfl⟩
  obtain ⟨first, left, right, won, hstale⟩ := circle.first_tick hfresh
  have hbefore : runAll rules [.tick 3 first, .setRoot circle.places[2]] (ofEngine fresh 2 {}) =
      (setRoot circle.places[2]).after (tick rules 3 first (ofEngine fresh 2 {})).2 := rfl
  generalize (tick rules 3 first (ofEngine fresh 2 {})).2 = s at hstale hbefore
  have hdrawn := hstale.drawn
  obtain ⟨hright, hsame, hlimit, htracing⟩ := hstale.setRoot
  obtain ⟨second, hdone, hroot, happroach, hfollows, htracing'⟩ := circle.second_tick htracing hlimit
  obtain ⟨enough, found, hgoes, hends⟩ := freshSearch_ends circle.peopled htracing'
  -- Both evaluations go through the same tree, one with what was carried over and one with nothing.
  have hgone := hfollows.goes
  rw [happroach, hsame, hright] at hgone hgoes
  obtain ⟨notes, hkept, hnotes⟩ := circle.from_right hdrawn hstale.noted
  obtain ⟨notes', hnew, hnotes'⟩ := circle.from_right_fresh hdrawn
  refine ⟨fresh, first, second, enough, hfresh, ?_⟩
  rw [hbefore]
  refine ⟨hdone, ?_, fun time hlong => ?_⟩
  · rw [hroot.trans hright]
    exact (congrFun (Evaluation.meet_at_end hgone hkept) right).trans hnotes
  · rw [hroot, hright]
    obtain ⟨hending, hfound⟩ := hright ▸ hends time hlong
    exact ⟨hending, (congrFun (hfound.trans (Evaluation.meet_at_end hgoes hnew)) right).trans hnotes'⟩

end Session

end SearchLab.Game
