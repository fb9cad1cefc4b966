import SearchLab.Proofs.Game.Engine
import SearchLab.Proofs.Game.Evaluation
import SearchLab.Proofs.Game.Slice

/-!
# Sessions at any time

Between two ticks of a session all that is known is right: what is written down about a position is its minimax worth
in the tree as it is, and the evaluation that goes on in the next tick is on its way through this very tree. A tick that
makes the tree grow forgets what was written down before, and one that does not has left the tree as it was.

* `Sound` — a session between two ticks;
* `sound_tick`, `sound_setRoot` — what a session does keeps it sound;
* `minimax_at_any_time` — what is known after any sequence of calls.
-/

namespace SearchLab.Game.Session

open SearchLab.Game.Tree (Grows Joins Retains SameMoves)

variable {π υ : Type} [Position π υ]

/-! ## The expansion of a tick -/

/-- A tree on the way from another one: it is in step, it obeys the rules, and unless it has grown it is the same. -/
structure Grown (rules : Rules π) (G : Set π) (before : Tree π υ) (e : Engine π υ) : Prop where
  inStep : e.tree.InStep
  obeys : e.tree.Obeys rules G
  grows : Grows before e.tree
  same : e.grown = false → e.tree = before

variable {rules : Rules π} {G : Set π}

theorem Grown.expandNode {before : Tree π υ} {e : Engine π υ} (h : Grown rules G before e) (hwithin : rules.Within G)
    (slot : Nat) : Grown rules G before ((Engine.expandNode rules slot).after e) := by
  have houtcome := Engine.expandNode_outcome rules slot h.inStep
  rw [Engine.after_eq_engine]
  obtain ⟨hstep, hgrows⟩ := houtcome.inStep_grows h.inStep
  refine ⟨hstep, houtcome.obeys h.obeys hwithin, h.grows.trans hgrows, ?_⟩
  generalize Engine.expandNode rules slot e = r at houtcome
  cases houtcome with
  | missing | kept | refused | failed => exact h.same
  | opened => exact fun hfalse => by cases hfalse

theorem Grown.step {before : Tree π υ} {s : Deepening × Engine π υ} (h : Grown rules G before s.2)
    (hwithin : rules.Within G) : Grown rules G before ((Deepening.step rules).after s).2 := by
  have hstepped := Deepening.step_stepped rules s
  unfold Edit.after
  generalize Deepening.step rules s = r at hstepped
  cases hstepped with
  | finished => exact h
  | failed _ hexpand => exact Edit.after_error hexpand ▸ h.expandNode hwithin _
  | expanded _ hexpand => exact Edit.after_ok hexpand ▸ h.expandNode hwithin _

/-! ## The evaluation of a tick -/

variable [Score υ]

/-- An evaluation on its way from a root, with the tree that it goes through. -/
structure Judging (rules : Rules π) (G : Set π) (root : Nat) (s : Evaluation υ × Engine π υ) : Prop where
  inStep : s.2.tree.InStep
  obeys : s.2.tree.Obeys rules G
  judged : s.2.tree.Judged
  grown : s.2.grown = false
  live : (s.2.tree.entry? root).isSome = true
  evaluation : Evaluation.Sound s.2.tree root s.1

/-- The outcomes of a game are of a sort. -/
structure Outcomes (C : Set υ) (G : Set π) : Prop where
  zero : (Score.zero : υ) ∈ C
  score : ∀ p ∈ G, Position.isTerminal p = true → Position.score p ∈ C
  heuristic : ∀ p ∈ G, ∀ u, Position.heuristic p = some u → u ∈ C

theorem Outcomes.shows {C : Set υ} (h : Outcomes C G) {t : Tree π υ} (hobeys : t.Obeys rules G) : t.Shows C where
  zero := h.zero
  score he hended := h.score _ (hobeys.position he) hended
  heuristic he hu := h.heuristic _ (hobeys.position he) _ hu

variable {α : Type} [LinearOrder α] {rank : υ → α} {C : Set υ}

theorem Judging.step (hrank : Score.RankedBy rank C) (houtcomes : Outcomes C G) (hacyclic : rules.Acyclic G) {root : Nat}
    {s : Evaluation υ × Engine π υ} (h : Judging rules G root s) : Judging rules G root (evaluationStep.after s) := by
  have hcomes := Evaluation.seek_spec hrank (houtcomes.shows h.obeys) (h.obeys.acyclic h.inStep hacyclic) h.judged
    h.evaluation
  have hevaluated := evaluationStep_evaluated s
  unfold Edit.after
  generalize evaluationStep s = r at hevaluated
  cases hevaluated with
  | failed hseek =>
      rw [hseek] at hcomes
      exact ⟨h.inStep, h.obeys, h.judged, h.grown, h.live, hcomes⟩
  | finished hseek =>
      rw [hseek] at hcomes
      exact ⟨h.inStep, h.obeys, h.judged, h.grown, h.live, hcomes.1⟩
  | @judged v ev hseek =>
      rw [hseek] at hcomes
      obtain ⟨hstep, hsame⟩ := Tree.settle_spec h.inStep v
      obtain ⟨e, he⟩ := Option.isSome_iff_exists.mp h.live
      obtain ⟨e', he', _⟩ := hsame.there.entry he
      exact ⟨hstep, h.obeys.sameMoves hsame, Tree.Judged.settle h.judged hcomes.1, h.grown,
        Option.isSome_iff_exists.mpr ⟨e', he'⟩, hcomes.2⟩

/-- Where no position is left whose worth has to be found, the worth of the root is known. -/
theorem Judging.done (hrank : Score.RankedBy rank C) (houtcomes : Outcomes C G) (hacyclic : rules.Acyclic G) {root : Nat}
    {s s' : Evaluation υ × Engine π υ} (h : Judging rules G root s) (hnone : evaluationStep s = .ok none s') :
    (s'.2.tree.utility? root).isSome = true := by
  have hcomes := Evaluation.seek_spec hrank (houtcomes.shows h.obeys) (h.obeys.acyclic h.inStep hacyclic) h.judged
    h.evaluation
  have hevaluated := evaluationStep_evaluated s
  rw [hnone] at hevaluated
  cases hevaluated with
  | finished hseek =>
      rw [hseek] at hcomes
      exact hcomes.2

/-! ## Ticks -/

/-- Between two ticks of a session, all that is known is right. -/
structure Sound (rules : Rules π) (G : Set π) (s : Session π υ) : Prop where
  inStep : s.engine.tree.InStep
  obeys : s.engine.tree.Obeys rules G
  judged : s.engine.tree.Judged
  grown : s.engine.grown = false
  live : (s.engine.tree.entry? s.root).isSome = true
  evaluation : ∀ {ev}, s.evaluation = some ev → Evaluation.Sound s.engine.tree s.root ev

/-- A session is ready to evaluate its tree when that has been expanded. -/
theorem judging_settled {s : Session π υ} {before : Tree π υ} (hgrown : Grown rules G before s.engine)
    (hjudged : before.Judged) (hlive : (before.entry? s.root).isSome = true)
    (hevaluation : ∀ {ev}, s.evaluation = some ev → Evaluation.Sound before s.root ev) :
    s.settled.2.root = s.root ∧
      Judging rules G s.root (s.settled.2.evaluation.getD (Evaluation.ofRoot s.root), s.settled.2.engine) := by
  obtain ⟨entry, hentry⟩ := Option.isSome_iff_exists.mp hlive
  obtain ⟨entry', hentry', _⟩ := hgrown.grows.stays hentry
  unfold settled Engine.takeGrown
  cases hflag : s.engine.grown with
  | true =>
      -- What was written down before is forgotten, so nothing wrong is left.
      obtain ⟨hstep, hsame⟩ := Tree.resetUtilities_spec hgrown.inStep
      obtain ⟨e₁, he₁, _⟩ := hsame.there.entry hentry'
      refine ⟨rfl, hstep, hgrown.obeys.sameMoves hsame, ?_, rfl, Option.isSome_iff_exists.mpr ⟨e₁, he₁⟩, .fresh⟩
      intro slot e u he hu
      obtain ⟨e', _, rfl⟩ := Option.map_eq_some_iff.mp ((Tree.entry?_resetUtilities _ slot).symm.trans he)
      cases hu
  | false =>
      have htree := hgrown.same hflag
      refine ⟨rfl, hgrown.inStep, hgrown.obeys, htree ▸ hjudged, rfl, htree ▸ hlive, ?_⟩
      show Evaluation.Sound s.engine.tree s.root (s.evaluation.getD (Evaluation.ofRoot s.root))
      rw [htree]
      cases hev : s.evaluation with
      | none => exact .fresh
      | some ev => exact hevaluation hev

omit [Score υ] in
/-- The session in the middle of a tick, when its tree has been expanded. -/
def expanded (rules : Rules π) (time : Nat) (s : Session π υ) : Session π υ :=
  let expanding := s.refilled.expansionSlice rules time
  { s.refilled with
    expansion := some expanding.state.1
    engine := expanding.state.2
    announced := s.announced || expanding.ending.isDone }

omit [Score υ] in
/-- The expansion of a tick leaves a tree on the way from the one before. -/
theorem grown_expanded (hwithin : rules.Within G) (time : Nat) {s : Session π υ} (h : s.engine.tree.InStep)
    (hobeys : s.engine.tree.Obeys rules G) : Grown rules G s.engine.tree (s.expanded rules time).engine :=
  Slice.run_keeps (P := fun s' : Deepening × Engine π υ => Grown rules G s.engine.tree s'.2)
    (fun _ hs => hs.step hwithin) time ⟨h, hobeys, .refl _, fun _ => rfl⟩

/-- The slice of a tick that evaluates the tree, behind the one that expands it. -/
def evaluating (rules : Rules π) (expansionTime evaluationTime : Nat) (s : Session π υ) :
    Slice (Evaluation υ × Engine π υ) (Verdict υ) :=
  (s.expanded rules expansionTime).settled.2.evaluationSlice evaluationTime

/-- The halves of a tick. -/
theorem tick_eq (rules : Rules π) (expansionTime evaluationTime : Nat) (s : Session π υ) :
    (tick rules expansionTime evaluationTime s).1.evaluationDone =
        (s.evaluating rules expansionTime evaluationTime).ending.isDone ∧
      (tick rules expansionTime evaluationTime s).2 =
        let between := (s.expanded rules expansionTime).settled.2
        let ⟨ev, e⟩ := (s.evaluating rules expansionTime evaluationTime).state
        { between with
          evaluation := some ev
          engine := { e with tree := e.tree.highlight between.root (e.tree.bestLine between.root) } } :=
  ⟨rfl, rfl⟩

theorem isDone_iff {ending : Ending} : ending.isDone = true ↔ ending = .done := by
  cases ending <;> simp [Ending.isDone]

/-- **A tick keeps a session sound**; when it says that the evaluation is done, the worth of the root is known. -/
theorem sound_tick (hrank : Score.RankedBy rank C) (houtcomes : Outcomes C G) (hacyclic : rules.Acyclic G)
    (hwithin : rules.Within G) (expansionTime evaluationTime : Nat) {s : Session π υ} (h : Sound rules G s) :
    Sound rules G (tick rules expansionTime evaluationTime s).2 ∧
      ((tick rules expansionTime evaluationTime s).1.evaluationDone = true →
        (let s' := (tick rules expansionTime evaluationTime s).2
         s'.engine.tree.utility? s'.root).isSome = true) := by
  have hexpanded := grown_expanded hwithin expansionTime h.inStep h.obeys
  obtain ⟨hroot, hready⟩ := judging_settled (s := s.expanded rules expansionTime) hexpanded h.judged h.live h.evaluation
  obtain ⟨hdone, hstate⟩ := tick_eq rules expansionTime evaluationTime s
  rw [hdone, hstate]
  generalize hslice : s.evaluating rules expansionTime evaluationTime = slice
  generalize hbetween : (s.expanded rules expansionTime).settled.2 = between at hroot hready
  have hsteps : ∀ s', Judging rules G s.root s' → Judging rules G s.root (evaluationStep.after s') :=
    fun _ hs => hs.step hrank houtcomes hacyclic
  have hrun : slice = Slice.run (fun (_, e) => e.steps.isExhausted) evaluationStep evaluationTime
      (between.evaluation.getD (Evaluation.ofRoot s.root), between.engine) := by
    rw [← hslice, evaluating, evaluationSlice, hbetween]
    exact congrArg _ (by rw [hroot]; rfl)
  have hjudging : Judging rules G s.root slice.state := hrun ▸ Slice.run_keeps hsteps evaluationTime hready
  obtain ⟨hstep, hentries⟩ := Tree.highlight_spec hjudging.inStep between.root
    (slice.state.2.tree.bestLine between.root)
  have hsame : SameMoves slice.state.2.tree _ := .of_entries hentries
  have hentry : ∀ slot, Tree.entry? (slice.state.2.tree.highlight between.root (slice.state.2.tree.bestLine between.root))
      slot = slice.state.2.tree.entry? slot := fun slot => by rw [ Tree.entry?, Tree.entry?, hentries]
  have hutility : ∀ slot, Tree.utility? (slice.state.2.tree.highlight between.root
      (slice.state.2.tree.bestLine between.root)) slot = slice.state.2.tree.utility? slot := fun slot => by
    rw [Tree.utility?, Tree.utility?, hentry]
  refine ⟨⟨hstep, hjudging.obeys.sameMoves hsame, ?_, hjudging.grown, ?_, ?_⟩, ?_⟩
  · intro slot e u he hu
    exact (hjudging.judged ((hentry slot).symm.trans he) hu).retained hsame.there
  · show (Tree.entry? _ between.root).isSome = true
    rw [hentry, hroot]
    exact hjudging.live
  · intro ev hev
    obtain rfl := Option.some.inj hev
    show Evaluation.Sound _ between.root slice.state.1
    rw [hroot]
    refine hjudging.evaluation.retained hsame.there fun hdone => ?_
    show (Tree.utility? _ s.root).isSome = true
    rw [hutility]
    exact hdone
  · intro hended
    obtain ⟨s', hs', hnone⟩ := Slice.run_done hsteps evaluationTime hready (hrun ▸ isDone_iff.mp hended)
    show (Tree.utility? _ between.root).isSome = true
    rw [hutility, hroot]
    exact hs'.done hrank houtcomes hacyclic (hrun ▸ hnone)

/-! ## Other roots -/

omit [LinearOrder α] [Score υ] in
/-- Where the position is the root already, all goes on as it was. -/
theorem after_setRoot_of_same {p : π} {s : Session π υ} {slot : Nat} {tree : Tree π υ}
    (hset : Tree.setRoot p s.engine.tree = .ok slot tree) (hsame : slot = s.root) :
    (setRoot p).after s = { s with engine := { s.engine with tree } } := by
  simp only [Edit.after, setRoot, hset, if_pos hsame]

omit [LinearOrder α] [Score υ] in
/-- Where another position becomes the root, both activities begin anew. -/
theorem after_setRoot_of_other {p : π} {s : Session π υ} {slot : Nat} {tree : Tree π υ}
    (hset : Tree.setRoot p s.engine.tree = .ok slot tree) (hother : slot ≠ s.root) :
    (setRoot p).after s =
      { s with engine := { s.engine with tree }, root := slot, expansion := none, evaluation := none, announced := false } := by
  simp only [Edit.after, setRoot, hset, if_neg hother]

omit [LinearOrder α] in
/-- Going on from another position keeps a session sound. -/
theorem sound_setRoot {p : π} (hp : p ∈ G) {s : Session π υ} (h : Sound rules G s) :
    Sound rules G ((setRoot p).after s) := by
  obtain ⟨slot, tree, hset, hstep, hlive, hjoins⟩ := Tree.setRoot_spec h.inStep p
  have hretains : Retains s.engine.tree { tree with root := slot } := (Retains.of_joins hjoins).withRoot slot
  have hobeys : Tree.Obeys rules G { tree with root := slot } :=
    (h.obeys.joins hjoins fun q hq => hq ▸ hp).withRoot slot
  have hjudged : Tree.Judged { tree with root := slot } := by
    intro other e u he hu
    cases hold : s.engine.tree.entry? other with
    | none =>
        obtain ⟨q, _, rfl⟩ := hjoins.joined hold he
        cases hu
    | some e' =>
        obtain rfl := Option.some.inj ((hjoins.kept hold).symm.trans he)
        exact (h.judged hold hu).retained hretains
  by_cases hroot : slot = s.root
  · rw [after_setRoot_of_same hset hroot]
    refine ⟨hstep, hobeys, hjudged, h.grown, Option.isSome_iff_exists.mpr (hroot ▸ hlive), fun hev => ?_⟩
    refine (h.evaluation hev).retained hretains fun hdone => ?_
    obtain ⟨u, hu⟩ := Option.isSome_iff_exists.mp hdone
    obtain ⟨e', he', hu'⟩ := Option.bind_eq_some_iff.mp hu
    exact Option.isSome_iff_exists.mpr ⟨u, Option.bind_eq_some_iff.mpr ⟨e', hjoins.kept he', hu'⟩⟩
  · rw [after_setRoot_of_other hset hroot]
    exact ⟨hstep, hobeys, hjudged, h.grown, Option.isSome_iff_exists.mpr hlive, by simp⟩

omit [LinearOrder α] in
/-- Nothing is known yet of a game that was not looked into. -/
theorem sound_ofEngine (hwithin : rules.Within G) {fresh : Engine π υ} (hfresh : Engine.ofRules rules = .ok fresh)
    (depth : Nat) (configuration : Configuration) : Sound rules G (ofEngine fresh depth configuration) := by
  obtain ⟨p, hp, rfl⟩ := Engine.ofRules_spec hfresh
  obtain ⟨hstep, hroot, hall⟩ := Tree.ofRoot_spec (υ := υ) p
  refine ⟨hstep, .ofRoot (hwithin.initial hp), ?_, rfl, Option.isSome_iff_exists.mpr ⟨_, hroot⟩, by simp [ofEngine]⟩
  intro slot e u he hu
  rw [hall he] at hu
  cases hu

/-! ## Sequences of calls -/

/-- What is asked of a session. The time of a slice is up after so many steps. -/
inductive Call (π : Type) where
  | tick (expansionTime evaluationTime : Nat)
  | setRoot (p : π)

/-- The session after a call. -/
def Call.run (rules : Rules π) (s : Session π υ) : Call π → Session π υ
  | .tick expansionTime evaluationTime => (Session.tick rules expansionTime evaluationTime s).2
  | .setRoot p => (Session.setRoot p).after s

/-- The session after some calls. -/
def runAll (rules : Rules π) (calls : List (Call π)) (s : Session π υ) : Session π υ :=
  calls.foldl (Call.run rules) s

theorem sound_runAll (hrank : Score.RankedBy rank C) (houtcomes : Outcomes C G) (hacyclic : rules.Acyclic G)
    (hwithin : rules.Within G) {calls : List (Call π)} (hcalls : ∀ p, .setRoot p ∈ calls → p ∈ G) {s : Session π υ}
    (h : Sound rules G s) : Sound rules G (runAll rules calls s) := by
  induction calls generalizing s with
  | nil => exact h
  | cons call rest ih =>
      have hfirst : Sound rules G (call.run rules s) := by
        cases call with
        | tick expansionTime evaluationTime =>
            exact (sound_tick hrank houtcomes hacyclic hwithin expansionTime evaluationTime h).1
        | setRoot p => exact sound_setRoot (hcalls p List.mem_cons_self) h
      exact ih (fun p hp => hcalls p (List.mem_cons_of_mem call hp)) hfirst

open Classical in
/-- **Minimax at any time.** Take a game whose moves do not lead back and whose scores and estimates are numbers, and a
session that has begun with nothing known of it. After any sequence of ticks and changes of the root, with any limits
and whenever the slices of the ticks were ended, each position of which something is written down has its minimax worth
in the tree as it is, and its best moves are the moves, in their order, that lead to positions worth the same. When a
tick says that the evaluation is done, the worth of the root is known. -/
theorem minimax_at_any_time {π : Type} [Position π Float] {rules : Rules π} {G : Set π} (hwithin : rules.Within G)
    (hacyclic : rules.Acyclic G)
    (hscore : ∀ p ∈ G, Position.isTerminal p = true → (Position.score p : Float).isNaN = false)
    (hheuristic : ∀ p ∈ G, ∀ u : Float, Position.heuristic p = some u → u.isNaN = false)
    {fresh : Engine π Float} (hfresh : Engine.ofRules rules = .ok fresh) (depth : Nat) (configuration : Configuration)
    (calls : List (Call π)) (hcalls : ∀ p, .setRoot p ∈ calls → p ∈ G) :
    let s := runAll rules calls (ofEngine fresh depth configuration)
    let t := s.engine.tree
    (∀ slot entry u, t.entry? slot = some entry → entry.utility = some u →
      t.Worth slot u ∧ (∀ w, t.Worth slot w → (u == w) = true) ∧
        entry.bestMoves = entry.replies.filter fun m => ∃ w, t.Worth m.slot w ∧ (u == w) = true) ∧
    ∀ expansionTime evaluationTime, (tick rules expansionTime evaluationTime s).1.evaluationDone = true →
      let s' := (tick rules expansionTime evaluationTime s).2
      (s'.engine.tree.utility? s'.root).isSome = true := by
  have hrank : Score.RankedBy Double.rank {u : Float | u.isNaN = false} := Score.rankedBy_double
  have houtcomes : Outcomes {u : Float | u.isNaN = false} G := ⟨rfl, hscore, hheuristic⟩
  have hsound := sound_runAll hrank houtcomes hacyclic hwithin hcalls (sound_ofEngine hwithin hfresh depth configuration)
  have hshows := houtcomes.shows hsound.obeys
  refine ⟨?_, ?_⟩
  · intro slot entry u hentry hu
    have hright := hsound.judged hentry hu
    exact ⟨hright.worth, fun w hw => hright.worth.same hrank hshows hw, hright.bestMoves_eq hrank hshows hentry⟩
  · intro expansionTime evaluationTime
    exact (sound_tick hrank houtcomes hacyclic hwithin expansionTime evaluationTime hsound).2

/-- A tick that is cut short, another root, and a tick that comes to its end. -/
theorem minimax_at_any_time_sample :
    let rules := Table.twoPly.rules none
    let left : Place := ⟨"left", "left", some .min, false, 0.0, some 0.5,
      [[("to", .text "lost")], [("to", .text "even")]]⟩
    ∃ fresh : Engine Place Float, Engine.ofRules rules = .ok fresh ∧
      let s := runAll rules [.tick 2 1, .setRoot left, .tick 9 9] (ofEngine fresh 1 {})
      ∀ slot entry u, s.engine.tree.entry? slot = some entry → entry.utility = some u → s.engine.tree.Worth slot u := by
  intro rules left
  obtain ⟨fresh, hfresh⟩ : ∃ fresh : Engine Place Float, Engine.ofRules rules = .ok fresh := ⟨_, rfl⟩
  refine ⟨fresh, hfresh, ?_⟩
  have hscore : ∀ p ∈ Table.twoPly.places, p.isTerminal = true → p.score.isNaN = false := by
    intro p hp _
    simp only [Table.twoPly, List.mem_cons, List.not_mem_nil, or_false] at hp
    rcases hp with rfl | rfl | rfl | rfl | rfl <;> rfl
  have hheuristic : ∀ p ∈ Table.twoPly.places, ∀ u, p.heuristic = some u → u.isNaN = false := by
    intro p hp u hu
    simp only [Table.twoPly, List.mem_cons, List.not_mem_nil, or_false] at hp
    rcases hp with rfl | rfl | rfl | rfl | rfl <;> cases hu
    rfl
  have hleft : left ∈ Table.twoPly.places := by simp [left, Table.twoPly]
  have hminimax := minimax_at_any_time (Table.twoPly.within none) Table.twoPly_acyclic hscore hheuristic hfresh 1 {}
    [.tick 2 1, .setRoot left, .tick 9 9] (by simpa using hleft)
  intro s slot entry u hentry hu
  exact (hminimax.1 slot entry u hentry hu).1

end SearchLab.Game.Session
