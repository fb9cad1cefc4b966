import SearchLab.Proofs.Game.Completeness
import SearchLab.Proofs.Game.Session
import SearchLab.Proofs.Game.Twins

/-!
# Where the slices are cut makes no difference

Two sessions search the same game from the same depth. The first expands as long as it can, in a single tick. The second
is stopped again and again: by its budget, by the time, or by rules that fail at a call; and between its slices the tree
is evaluated and written into. `Abreast` says that the second session is where the first one has been after as many
expansions: their trees are twins, and their deepening searches come to the same node next.

* `Abreast.step`, `abreast_tick` — a step of the second is a step of the first, or leaves the two abreast, and so is a tick;
* `comes_to_end_after_cuts` — a search that was cut comes to its end when it is given the time;
* `slices_make_no_difference` — the second session pulls the same expansions in the same order, and in the end it has
  the same tree.
-/

namespace SearchLab.Game

open Edit (Agree)
open SearchLab.Game.Tree (Twins)

variable {π υ : Type}

/-! ## Expanding the same position -/

/-- A position of two twins is expanded to the same moves, unless the rules fail at the second, which then has the tree
that it had. -/
theorem Engine.expandNode_of_twins [Position π υ] {rules rules' : Rules π} (hfalters : rules'.Falters rules)
    {e e' : Engine π υ} (hfirst : e.tree.InStep) (hsecond : e'.tree.InStep) (htwins : Twins e.tree e'.tree)
    (hunlimited : e.expansions = .unlimited) (hleft : e'.expansions.isExhausted = false) (slot : Nat) :
    (∃ x e₁ e₁', expandNode rules slot e = .ok x e₁ ∧ expandNode rules' slot e' = .ok x e₁' ∧ e₁.tree.InStep ∧
      e₁'.tree.InStep ∧ Twins e₁.tree e₁'.tree ∧ e₁.expansions = .unlimited) ∨
    ∃ err e₁', expandNode rules' slot e' = .error err e₁' ∧ e₁'.tree = e'.tree := by
  have houtcome := expandNode_outcome rules slot hfirst
  have houtcome' := expandNode_outcome rules' slot hsecond
  generalize expandNode rules slot e = r at houtcome
  generalize expandNode rules' slot e' = r' at houtcome'
  cases houtcome' with
  | missing => exact .inr ⟨_, _, rfl, rfl⟩
  | failed => exact .inr ⟨_, _, rfl, rfl⟩
  | refused _ _ hspent => exact absurd ((Budget.spend?_eq_none_iff _).mp hspent) (by rw [hleft]; exact Bool.false_ne_true)
  | @kept entry' moves hentry' hmoves' =>
      obtain ⟨entry, hentry, hposition, hmoves⟩ := htwins.symm.entry hentry'
      cases houtcome with
      | missing hnone => cases hnone.symm.trans hentry
      | kept hsame hkept =>
          obtain rfl := Option.some.inj (hentry.symm.trans hsame)
          obtain rfl := Option.some.inj (hkept.symm.trans (hmoves.trans hmoves'))
          rw [hposition]
          exact .inl ⟨_, _, _, rfl, rfl, hfirst, hsecond, htwins, hunlimited⟩
      | refused hsame hnone | failed hsame hnone | opened hsame hnone =>
          obtain rfl := Option.some.inj (hentry.symm.trans hsame)
          cases hnone.symm.trans (hmoves.trans hmoves')
  | @opened entry' left branches moves tree hentry' hmoves' hspend hbranches hgrow htree hopens =>
      obtain ⟨entry, hentry, hposition, hmoves⟩ := htwins.symm.entry hentry'
      have hgiven : rules.branches entry.position = .ok branches := by
        rcases hfalters.branches entry'.position with hsame | ⟨err, hfails⟩
        · rw [hposition, ← hsame, hbranches]
        · cases hfails.symm.trans hbranches
      cases houtcome with
      | missing hnone => cases hnone.symm.trans hentry
      | kept hsame hkept =>
          obtain rfl := Option.some.inj (hentry.symm.trans hsame)
          cases hkept.symm.trans (hmoves.trans hmoves')
      | refused _ _ hspent => simp [hunlimited, Budget.spend?] at hspent
      | failed hsame _ _ hfails =>
          obtain rfl := Option.some.inj (hentry.symm.trans hsame)
          cases hgiven.symm.trans hfails
      | @opened _ left₁ _ _ tree₁ hsame _ hspend₁ hbranches₁ hgrow₁ htree₁ =>
          obtain rfl := Option.some.inj (hentry.symm.trans hsame)
          obtain rfl := Except.ok.inj (hgiven.symm.trans hbranches₁)
          have hgrown := htwins.grow hfirst hsecond hentry entry.position branches
          rw [hgrow₁, hposition, hgrow] at hgrown
          cases hgrown with
          | ok _ htwins₁ =>
              obtain rfl : Budget.unlimited = left₁ := by simpa [hunlimited, Budget.spend?] using hspend₁
              rw [hposition]
              exact .inl ⟨_, _, _, rfl, rfl, htree₁, htree, htwins₁, rfl⟩

namespace Deepening

/-! ## Searches that are abreast -/

theorem seek_of_settled {isInner : Nat → Bool} {d : Deepening} (hs : d.stack = []) (hsettled : d.isSettled = true) :
    seek isInner d = (none, d) := by
  obtain ⟨root, limit, found, best, stack⟩ := d
  cases hs
  rw [seek]
  exact dif_pos hsettled

theorem seek_of_finished {isInner : Nat → Bool} {d : Deepening} (hs : d.stack = []) (hopen : d.isSettled = false) :
    seek isInner d = seek isInner d.nextPass := by
  obtain ⟨root, limit, found, best, stack⟩ := d
  cases hs
  rw [seek]
  exact dif_neg (by simp [hopen])

theorem seek_of_open {isInner : Nat → Bool} {d : Deepening} {slot depth : Nat} {below : List Frame}
    (hs : d.stack = ⟨slot, depth, none⟩ :: below) (hopen : (isInner slot && depth < d.limit) = true) :
    seek isInner d = (some slot, d) := by
  obtain ⟨root, limit, found, best, stack⟩ := d
  cases hs
  rw [seek]
  exact if_pos hopen

/-- A search goes on with the next child. -/
theorem seek_of_child {isInner : Nat → Bool} {d : Deepening} {slot depth child : Nat} {rest : List Nat}
    {below : List Frame} (hs : d.stack = ⟨slot, depth, some (child :: rest)⟩ :: below) :
    seek isInner d =
      seek isInner { d with stack := ⟨child, depth + 1, none⟩ :: ⟨slot, depth, some rest⟩ :: below } := by
  obtain ⟨root, limit, found, best, stack⟩ := d
  cases hs
  rw [seek]

theorem seek_of_through {isInner : Nat → Bool} {d : Deepening} {slot depth : Nat} {below : List Frame}
    (hs : d.stack = ⟨slot, depth, some []⟩ :: below) :
    seek isInner d = seek isInner { d with stack := below } := by
  obtain ⟨root, limit, found, best, stack⟩ := d
  cases hs
  rw [seek]

theorem seek_of_closed {isInner : Nat → Bool} {d : Deepening} {slot depth : Nat} {below : List Frame}
    (hs : d.stack = ⟨slot, depth, none⟩ :: below) (hclosed : ¬ (isInner slot && depth < d.limit) = true) :
    seek isInner d = seek isInner { d with stack := below } := by
  obtain ⟨root, limit, found, best, stack⟩ := d
  cases hs
  rw [seek]
  exact if_neg hclosed

/-- A search that has come to its next node comes to the same node again. -/
theorem seek_seek (isInner : Nat → Bool) (d : Deepening) : seek isInner (seek isInner d).2 = seek isInner d := by
  fun_induction seek isInner d with
  | case1 d hs hsettled => exact seek_of_settled hs hsettled
  | case2 d hs hsettled ih => exact ih
  | case3 d slot depth below hs hopen => exact seek_of_open hs hopen
  | case4 d slot depth below hs hclosed ih => exact ih
  | case5 d slot depth below hs ih => exact ih
  | case6 d slot depth child rest below hs ih => exact ih

variable [Position π υ]

/-- A deepening search expands a position that it has come to. -/
theorem step_opens {rules : Rules π} {d d' : Deepening} {e : Engine π υ} {slot : Nat} {entry : Entry π υ}
    {branches : List (Action × π)} (h : e.tree.InStep) (hunlimited : e.expansions = .unlimited)
    (hseek : d.seek (isInner e.tree) = (some slot, d')) (hentry : e.tree.entry? slot = some entry)
    (hclosed : entry.moves = none) (hbranches : rules.branches entry.position = .ok branches) :
    ∃ x e', step rules (d, e) = .ok (some x) (d'.opened (x.moves.map Move.slot), e') ∧ e'.tree.InStep ∧
      e'.expansions = .unlimited ∧ Tree.Opens slot branches x.moves e.tree e'.tree := by
  have houtcome := Engine.expandNode_outcome rules slot h
  simp only [step, hseek]
  generalize Engine.expandNode rules slot e = r at houtcome
  cases houtcome with
  | missing hnone => cases hnone.symm.trans hentry
  | kept hsome hmoves =>
      obtain rfl := Option.some.inj (hsome.symm.trans hentry)
      cases hclosed.symm.trans hmoves
  | refused _ _ hspent => simp [hunlimited, Budget.spend?] at hspent
  | failed hsome _ _ hfails =>
      obtain rfl := Option.some.inj (hsome.symm.trans hentry)
      cases hfails.symm.trans hbranches
  | opened hsome _ hspend hsame _ htree hopens =>
      obtain rfl := Option.some.inj (hsome.symm.trans hentry)
      obtain rfl := Except.ok.inj (hsame.symm.trans hbranches)
      exact ⟨_, _, rfl, htree, by simpa [hunlimited, Budget.spend?] using hspend.symm, hopens⟩

/-- The budget of a deepening search is used up. -/
def isSpent (s : Deepening × Engine π υ) : Bool := s.2.expansions.isExhausted

omit [Position π υ] in
theorem isSpent_of_unlimited {s : Deepening × Engine π υ} (h : s.2.expansions = .unlimited) : isSpent s = false := by
  rw [isSpent, h]
  rfl

theorem isInner_of_twins {s t : Tree π υ} (h : Twins s t) : isInner t = isInner s := by
  funext slot
  rw [isInner, isInner, h.position?]

/-- Two searches that come to the same node next, in trees that differ at most in what was written into them. The first
may expand without end. -/
structure Abreast (s t : Deepening × Engine π υ) : Prop where
  first : s.2.tree.InStep
  second : t.2.tree.InStep
  twins : Twins s.2.tree t.2.tree
  sought : t.1.seek (isInner t.2.tree) = s.1.seek (isInner s.2.tree)
  unlimited : s.2.expansions = .unlimited

/-- Where nothing is left to be expanded, nothing is done. -/
theorem engine_of_step_none {rules : Rules π} {s s' : Deepening × Engine π υ} (h : step rules s = .ok none s') :
    s'.2 = s.2 := by
  have hstepped := step_stepped rules s
  rw [h] at hstepped
  cases hstepped
  rfl

namespace Abreast

variable {rules rules' : Rules π} {s t : Deepening × Engine π υ}

theorem symm (h : Abreast s t) (hunlimited : t.2.expansions = .unlimited) : Abreast t s :=
  ⟨h.second, h.first, h.twins.symm, h.sought.symm, hunlimited⟩

/-- What is written into a tree leaves a search where it is. -/
theorem written (h : Abreast s t) {e : Engine π υ} (hstep : e.tree.InStep) (htwins : Twins t.2.tree e.tree) :
    Abreast s (t.1, e) where
  first := h.first
  second := hstep
  twins := h.twins.trans htwins
  sought := by
    rw [isInner_of_twins htwins]
    exact h.sought
  unlimited := h.unlimited

/-- A search that has moved on to its next node is still where it was. -/
theorem sought_once (h : Abreast s t) {found : Option Nat} {d : Deepening}
    (hseek : s.1.seek (isInner s.2.tree) = (found, d)) : Abreast s (d, t.2) where
  first := h.first
  second := h.second
  twins := h.twins
  sought := by
    have hagain := seek_seek (isInner t.2.tree) t.1
    rw [h.sought, hseek] at hagain
    rw [hagain, hseek]
  unlimited := h.unlimited

/-- **A step of the second search is a step of the first**, unless its rules fail; then it leaves the two abreast. -/
theorem step (h : Abreast s t) (hfalters : rules'.Falters rules) (hleft : isSpent t = false) :
    match Deepening.step rules' t with
    | .ok (some x) t' => ∃ s', Deepening.step rules s = .ok (some x) s' ∧ Abreast s' t'
    | .ok none t' => (∃ s', Deepening.step rules s = .ok none s') ∧ Abreast s t'
    | .error _ t' => Abreast s t' := by
  obtain ⟨d, e⟩ := s
  obtain ⟨d', e'⟩ := t
  have hsought := h.sought
  cases hseek : d.seek (isInner e.tree) with
  | mk found next =>
      have hmoved := h.sought_once hseek
      dsimp only at hsought
      rw [hseek] at hsought
      cases found with
      | none =>
          simp only [Deepening.step, hsought, hseek]
          exact ⟨⟨_, rfl⟩, hmoved⟩
      | some slot =>
          rcases Engine.expandNode_of_twins hfalters h.first h.second h.twins h.unlimited hleft slot with
            ⟨x, e₁, e₁', hexpand, hexpand', hfirst, hsecond, htwins, hunlimited⟩ | ⟨err, e₁', hfails, htree⟩
          · simp only [Deepening.step, hsought, hseek, hexpand, hexpand']
            exact ⟨_, rfl, hfirst, hsecond, htwins, by rw [isInner_of_twins htwins], hunlimited⟩
          · simp only [Deepening.step, hsought, hfails]
            exact hmoved.written (htree ▸ h.second) (htree ▸ .refl _)

/-- Steps in a row of the second search are steps of the first. -/
theorem pulls (h : Abreast s t) (hfalters : rules'.Falters rules) {results : List Expansion} {t' : Deepening × Engine π υ}
    (hpulls : Slice.Pulls isSpent (Deepening.step rules') t results t') :
    ∃ s', Slice.Pulls isSpent (Deepening.step rules) s results s' ∧ Abreast s' t' := by
  induction hpulls generalizing s with
  | start => exact ⟨s, .start s, h⟩
  | more hleft hstep _ ih =>
      have hfirst := h.step hfalters hleft
      rw [hstep] at hfirst
      obtain ⟨s₁, hstep₁, habreast⟩ := hfirst
      obtain ⟨s', hpulls, hlast⟩ := ih habreast
      exact ⟨s', .more (isSpent_of_unlimited h.unlimited) hstep₁ hpulls, hlast⟩

/-- **The results of a slice of the second search** are those of steps that the first takes in a row. When the slice says
that nothing is left to be done, nothing is left for the first. -/
theorem run (h : Abreast s t) (hfalters : rules'.Falters rules) (time : Nat) :
    let slice := Slice.run isSpent (Deepening.step rules') time t
    ∃ s', Slice.Pulls isSpent (Deepening.step rules) s slice.results s' ∧ Abreast s' slice.state ∧
      (slice.ending = .done → ∃ s'', Deepening.step rules s' = .ok none s'') := by
  intro slice
  obtain ⟨t', hpulls, hends⟩ := Slice.run_spec isSpent (Deepening.step rules') time t
  obtain ⟨s', hfirst, hlast⟩ := h.pulls hfalters hpulls
  refine ⟨s', hfirst, ?_⟩
  have hstep := hlast.step hfalters
  change Slice.Ends isSpent (Deepening.step rules') t' slice.ending slice.state at hends
  generalize slice.ending = ending at hends
  generalize slice.state = state at hends
  cases hends with
  | timeUp | spent => exact ⟨hlast, fun hdone => by cases hdone⟩
  | failed hleft hfails =>
      have habreast := hstep hleft
      rw [hfails] at habreast
      exact ⟨habreast, fun hdone => by cases hdone⟩
  | done hleft hnone =>
      have habreast := hstep hleft
      rw [hnone] at habreast
      exact ⟨habreast.2, fun _ => habreast.1⟩

/-- Where the first search comes to its end, the second does as well, in a slice without a limit. -/
theorem ends (h : Abreast s t) (hunlimited : t.2.expansions = .unlimited) {results : List Expansion}
    {last last' : Deepening × Engine π υ} (hpulls : Slice.Pulls isSpent (Deepening.step rules) s results last)
    (hend : Deepening.step rules last = .ok none last') {time : Nat} (hlong : results.length < time)
    (hleft : isSpent last = false) : (Slice.run isSpent (Deepening.step rules) time t).ending = .done := by
  obtain ⟨t', hpulls', hlast⟩ := (h.symm hunlimited).pulls (.refl rules) hpulls
  have hnone := hlast.step (.refl rules) hleft
  rw [hend] at hnone
  obtain ⟨⟨t'', hend'⟩, _⟩ := hnone
  rw [hpulls'.run_to_end (isSpent_of_unlimited hlast.unlimited) hend' hlong]

end Abreast

/-! ## Coming to an end -/

section

variable {rules : Rules π} {G : Set π} {origin : String} (hwithin : rules.Within G)
  (hrules : ∀ p ∈ G, ∃ bs, rules.branches p = .ok bs)

include hwithin hrules

/-- A search without a limit that comes to its end takes steps in a row up to there. -/
theorem pulls_to_end {s s' : Deepening × Engine π υ} (h : Searching rules G origin s)
    (hunlimited : s.2.expansions = .unlimited) (i : Nat)
    (hdone : step rules (funded (pulls rules (fun _ => .unlimited) s i) .unlimited) = .ok none s') :
    ∃ results last last', Slice.Pulls isSpent (step rules) s results last ∧ isSpent last = false ∧
      step rules last = .ok none last' := by
  have hfunded : ∀ s : Deepening × Engine π υ, s.2.expansions = .unlimited → funded s .unlimited = s := by
    rintro ⟨d, e⟩ hunlimited
    rw [funded, ← hunlimited]
  induction i generalizing s with
  | zero => exact ⟨[], s, s', .start s, isSpent_of_unlimited hunlimited, hfunded s hunlimited ▸ hdone⟩
  | succ i ih =>
      have hleft := isSpent_of_unlimited hunlimited
      rcases step_spec hwithin hrules h hleft with ⟨d, hnone, _⟩ | ⟨x, s₁, hstep, hnext, _⟩
      · exact ⟨[], s, _, .start s, hleft, hnone⟩
      · -- Taken as its own companion, the search shows that its budget stays without a limit.
        have hself : Abreast s s := ⟨h.inStep, h.inStep, .refl _, rfl, hunlimited⟩
        have hsame := hself.step (.refl rules) hleft
        rw [hstep] at hsame
        obtain ⟨_, hstep₁, hself₁⟩ := hsame
        cases hstep₁
        rw [pulls_succ, hfunded s hunlimited, Edit.after_ok hstep] at hdone
        obtain ⟨results, last, last', hpulls, hlast, hend⟩ := ih hnext hself₁.unlimited hdone
        exact ⟨x :: results, last, last', .more hleft hstep hpulls, hlast, hend⟩

/-- In a finite game without cycles, a search without a limit comes to its end. -/
theorem comes_to_end_unlimited {p : π} (hp : rules.initial = .ok p)
    (hfinite : {id | Relation.ReflTransGen (rules.Leads G) (Position.id p) id}.Finite) (hacyclic : rules.Acyclic G)
    (depth : Nat) {e : Engine π υ} (htree : e.tree = Tree.ofRoot p) (hunlimited : e.expansions = .unlimited) :
    ∃ results last last', Slice.Pulls isSpent (step rules) (ofRoot e.tree.root depth, e) results last ∧
      isSpent last = false ∧ step rules last = .ok none last' := by
  obtain ⟨hstep, hroot, _⟩ := Tree.ofRoot_spec (υ := υ) p
  have hobeys : e.tree.Obeys rules G := htree ▸ .ofRoot (hwithin.initial hp)
  have hentry : e.tree.entry? e.tree.root = some { position := p } := htree ▸ hroot
  have hsearching := searching_ofRoot (htree ▸ hstep) hobeys hentry depth
  have hbudgets : ∀ i : Nat, (Function.const Nat Budget.unlimited i).isExhausted = false := fun _ => rfl
  obtain ⟨i, s', hdone⟩ := comes_to_end_ofRoot hwithin hrules hfinite (fun id _ => hacyclic id) hsearching hbudgets
  exact pulls_to_end hwithin hrules hsearching hunlimited i hdone

end

end Deepening

namespace Session

open Deepening (Abreast)

variable {π υ : Type}

/-! ## What a tick writes -/

/-- The evaluation of a tick and the line that it highlights leave a twin of the tree that was expanded. -/
theorem twins_settled (s : Session π υ) : Twins s.engine.tree s.settled.2.engine.tree := by
  unfold settled Engine.takeGrown
  cases s.engine.grown with
  | true => exact .resetUtilities _
  | false => exact .refl _

theorem expansion_settled (s : Session π υ) : s.settled.2.expansion = s.expansion := by
  unfold settled Engine.takeGrown
  cases s.engine.grown <;> rfl

theorem configuration_settled (s : Session π υ) : s.settled.2.configuration = s.configuration := by
  unfold settled Engine.takeGrown
  cases s.engine.grown <;> rfl

variable [Position π υ]

theorem inStep_settled {s : Session π υ} (h : s.engine.tree.InStep) : s.settled.2.engine.tree.InStep := by
  unfold settled Engine.takeGrown
  cases s.engine.grown with
  | true => exact (Tree.resetUtilities_spec h).1
  | false => exact h

/-- The deepening search that the next tick goes on with. -/
def deepening (s : Session π υ) : Deepening := s.expansion.getD (Deepening.ofRoot s.root s.depth)

variable [Score υ]

/-- A step of an evaluation leaves a twin of the tree. -/
theorem twins_evaluationStep {s : Evaluation υ × Engine π υ} (h : s.2.tree.InStep) :
    (evaluationStep.after s).2.tree.InStep ∧ Twins s.2.tree (evaluationStep.after s).2.tree := by
  have hevaluated := evaluationStep_evaluated s
  unfold Edit.after
  generalize evaluationStep s = r at hevaluated
  cases hevaluated with
  | failed | finished => exact ⟨h, .refl _⟩
  | judged => exact ⟨(Tree.settle_spec h _).1, .settle _ _⟩

/-- The tree behind a tick is a twin of the tree that was expanded. -/
theorem written_tick (rules : Rules π) (expansionTime evaluationTime : Nat) {s : Session π υ}
    (h : (s.expanded rules expansionTime).engine.tree.InStep) :
    let tree := (tick rules expansionTime evaluationTime s).2.engine.tree
    tree.InStep ∧ Twins (s.expanded rules expansionTime).engine.tree tree := by
  have hsteps : ∀ s' : Evaluation υ × Engine π υ,
      s'.2.tree.InStep ∧ Twins (s.expanded rules expansionTime).engine.tree s'.2.tree →
        (evaluationStep.after s').2.tree.InStep ∧
          Twins (s.expanded rules expansionTime).engine.tree (evaluationStep.after s').2.tree := by
    intro s' hs'
    obtain ⟨hstep, htwins⟩ := twins_evaluationStep hs'.1
    exact ⟨hstep, hs'.2.trans htwins⟩
  obtain ⟨hstep, htwins⟩ : (s.evaluating rules expansionTime evaluationTime).state.2.tree.InStep ∧
      Twins (s.expanded rules expansionTime).engine.tree (s.evaluating rules expansionTime evaluationTime).state.2.tree :=
    Slice.run_keeps hsteps evaluationTime ⟨inStep_settled h, twins_settled _⟩
  rw [(tick_eq rules expansionTime evaluationTime s).2]
  exact ⟨(Tree.highlight_spec hstep _ _).1, htwins.trans (.highlight _ _ _)⟩

/-- The next tick goes on with the deepening search where this one has left it. -/
theorem deepening_tick (rules : Rules π) (expansionTime evaluationTime : Nat) (s : Session π υ) :
    (tick rules expansionTime evaluationTime s).2.deepening = (s.refilled.expansionSlice rules expansionTime).state.1 := by
  have hkept : (s.expanded rules expansionTime).settled.2.expansion =
      some (s.refilled.expansionSlice rules expansionTime).state.1 := expansion_settled _
  rw [(tick_eq rules expansionTime evaluationTime s).2, deepening]
  show Option.getD (s.expanded rules expansionTime).settled.2.expansion _ = _
  rw [hkept, Option.getD_some]

/-! ## Ticks -/

/-- A tick, with the rules as they are at that time and the time of its slices. -/
structure Tick (π : Type) where
  rules : Rules π
  expansionTime : Nat
  evaluationTime : Nat

/-- What a tick reports, and the session behind it. -/
def Tick.run (k : Tick π) (s : Session π υ) : Report × Session π υ :=
  tick k.rules k.expansionTime k.evaluationTime s

/-- The expansions that a tick pulls. -/
def Tick.pulled (k : Tick π) (s : Session π υ) : List Expansion :=
  (s.refilled.expansionSlice k.rules k.expansionTime).results

/-- The session after some ticks. -/
def afterAll (ticks : List (Tick π)) (s : Session π υ) : Session π υ := ticks.foldl (fun s k => (k.run s).2) s

/-- The expansions that some ticks pull, one after another. -/
def pulledAll : List (Tick π) → Session π υ → List Expansion
  | [], _ => []
  | k :: rest, s => k.pulled s ++ pulledAll rest (k.run s).2

/-- What some ticks report. -/
def reports : List (Tick π) → Session π υ → List Report
  | [], _ => []
  | k :: rest, s => (k.run s).1 :: reports rest (k.run s).2

variable {rules : Rules π} {first : Deepening × Engine π υ} {s : Session π υ}

/-- **A tick of the second search** takes steps of the first. -/
theorem abreast_tick (h : Abreast first (s.deepening, s.engine)) {k : Tick π} (hk : k.rules.Falters rules) :
    ∃ first', Slice.Pulls Deepening.isSpent (Deepening.step rules) first (k.pulled s) first' ∧
      Abreast first' ((k.run s).2.deepening, (k.run s).2.engine) ∧
      ((k.run s).1.expansionDone = true → ∃ last, Deepening.step rules first' = .ok none last) := by
  have hrefilled : Abreast first (s.deepening, s.refilled.engine) := h.written h.second (.refl _)
  obtain ⟨first', hpulls, habreast, hdone⟩ := hrefilled.run hk k.expansionTime
  obtain ⟨hstep, htwins⟩ := written_tick k.rules k.expansionTime k.evaluationTime (s := s) habreast.second
  have hbehind := habreast.written hstep htwins
  have hdeepening := deepening_tick k.rules k.expansionTime k.evaluationTime s
  refine ⟨first', hpulls, ?_, fun hended => hdone (isDone_iff.mp hended)⟩
  rw [Tick.run, hdeepening]
  exact hbehind

/-- **Ticks of the second search, one after another,** take steps of the first. -/
theorem abreast_afterAll {ticks : List (Tick π)} (hticks : ∀ k ∈ ticks, k.rules.Falters rules)
    (h : Abreast first (s.deepening, s.engine)) :
    ∃ first', Slice.Pulls Deepening.isSpent (Deepening.step rules) first (pulledAll ticks s) first' ∧
      Abreast first' ((afterAll ticks s).deepening, (afterAll ticks s).engine) ∧
      ((∃ report ∈ reports ticks s, report.expansionDone = true) →
        ∃ last, Deepening.step rules first' = .ok none last) := by
  induction ticks generalizing first s with
  | nil => exact ⟨first, .start first, h, fun ⟨_, hreport, _⟩ => absurd hreport List.not_mem_nil⟩
  | cons k rest ih =>
      obtain ⟨middle, hpulls, habreast, hdone⟩ := abreast_tick h (hticks k List.mem_cons_self)
      obtain ⟨last, hrest, hlast, hdone'⟩ := ih (fun j hj => hticks j (List.mem_cons_of_mem k hj)) habreast
      refine ⟨last, hpulls.trans hrest, hlast, ?_⟩
      rintro ⟨report, hreport, hended⟩
      rcases List.mem_cons.mp hreport with rfl | hreport
      · -- Nothing was left to be done, so the ticks behind have found nothing more.
        obtain ⟨s', hnone⟩ := hdone hended
        obtain ⟨_, rfl⟩ := hrest.of_done hnone
        exact ⟨s', hnone⟩
      · exact hdone' ⟨report, hreport, hended⟩

theorem configuration_afterAll (ticks : List (Tick π)) (s : Session π υ) :
    (afterAll ticks s).configuration = s.configuration := by
  induction ticks generalizing s with
  | nil => rfl
  | cons k rest ih =>
      have hfirst : (k.run s).2.configuration = s.configuration := by
        rw [Tick.run, (tick_eq k.rules k.expansionTime k.evaluationTime s).2]
        exact configuration_settled _
      exact (ih _).trans hfirst

omit [Score υ] in
/-- Two sessions that begin with the same engine are abreast. -/
theorem abreast_ofEngine {fresh : Engine π υ} (hfresh : Engine.ofRules rules = .ok fresh) (depth : Nat)
    {whole : Configuration} (hwhole : whole.maxExpansions = .unlimited) (sliced : Configuration) :
    Abreast (Deepening.ofRoot fresh.tree.root depth, (ofEngine fresh depth whole).refilled.engine)
      ((ofEngine fresh depth sliced).deepening, (ofEngine fresh depth sliced).engine) := by
  have hstep : fresh.tree.InStep := by
    obtain ⟨p, _, rfl⟩ := Engine.ofRules_spec hfresh
    exact (Tree.ofRoot_spec p).1
  exact ⟨hstep, hstep, .refl _, rfl, hwhole⟩

/-- **A search that was cut comes to its end.** In a finite game without cycles, and without a limit to the expansions of a
tick, there is a time that is enough: after any ticks, whenever they were cut, a tick with that time and with rules that do
not fail reports that the expansion is done. -/
theorem comes_to_end_after_cuts {G : Set π} (hwithin : rules.Within G) (hrules : ∀ p ∈ G, ∃ bs, rules.branches p = .ok bs)
    (hfinite : ∀ p, rules.initial = .ok p → {id | Relation.ReflTransGen (rules.Leads G) (Position.id p) id}.Finite)
    (hacyclic : rules.Acyclic G) {fresh : Engine π υ} (hfresh : Engine.ofRules rules = .ok fresh) (depth : Nat)
    {configuration : Configuration} (hlimit : configuration.maxExpansions = .unlimited) :
    ∃ enough, ∀ ticks : List (Tick π), (∀ k ∈ ticks, k.rules.Falters rules) → ∀ time evaluationTime, enough ≤ time →
      (tick rules time evaluationTime (afterAll ticks (ofEngine fresh depth configuration))).1.expansionDone = true := by
  obtain ⟨p, hp, rfl⟩ := Engine.ofRules_spec hfresh
  obtain ⟨results, last, last', hall, hleft, hend⟩ := Deepening.comes_to_end_unlimited hwithin hrules hp (hfinite p hp)
    hacyclic depth (e := (ofEngine { tree := Tree.ofRoot p } depth configuration).refilled.engine) rfl hlimit
  refine ⟨results.length + 1, fun ticks hticks time evaluationTime hlong => ?_⟩
  obtain ⟨middle, hcut, habreast, _⟩ := abreast_afterAll hticks (abreast_ofEngine hfresh depth hlimit configuration)
  obtain ⟨rest, rfl, hbehind⟩ := hcut.rest hall hend
  generalize hs : afterAll ticks (ofEngine { tree := Tree.ofRoot p } depth configuration) = s at habreast
  have hunlimited : s.refilled.engine.expansions = .unlimited := by
    rw [refilled, ← hs, configuration_afterAll]
    exact hlimit
  have hrefilled : Abreast middle (s.deepening, s.refilled.engine) := habreast.written habreast.second (.refl _)
  rw [List.length_append] at hlong
  exact isDone_iff.mpr (hrefilled.ends hunlimited hbehind hend (by omega) hleft)

/-- **Where the slices are cut makes no difference.** Take two sessions that begin to search the same game from the same
depth, the first without a limit to its expansions. The second goes through any ticks: with any limits, whenever the time
of their slices is up, and with rules that may fail where those of the game do not. The expansions that it pulls in these
ticks, one after another, are the first that a single slice of the first session pulls, if that has the time or comes to
its end. And when both have reported that the expansion is done, their trees have the same nodes in the same order, the
same edges with the same actions, and the same nodes expanded, with the same path counts. -/
theorem slices_make_no_difference {fresh : Engine π υ} (hfresh : Engine.ofRules rules = .ok fresh) (depth : Nat)
    {whole : Configuration} (hwhole : whole.maxExpansions = .unlimited) (sliced : Configuration) {ticks : List (Tick π)}
    (hticks : ∀ k ∈ ticks, k.rules.Falters rules) :
    let first := ofEngine fresh depth whole
    let second := ofEngine fresh depth sliced
    (∀ time, let slice := first.refilled.expansionSlice rules time
      (slice.ending ≠ .timeUp ∨ (pulledAll ticks second).length ≤ time) → pulledAll ticks second <+: slice.results) ∧
    ∀ time evaluationTime, (tick rules time evaluationTime first).1.expansionDone = true →
      (∃ report ∈ reports ticks second, report.expansionDone = true) →
        let one := (tick rules time evaluationTime first).2.engine.tree
        let other := (afterAll ticks second).engine.tree
        other.graph.nodeList = one.graph.nodeList ∧
        (other.graph.edgeList.map fun e => (e.id, e.source, e.target, Tree.actionOf e)) =
          (one.graph.edgeList.map fun e => (e.id, e.source, e.target, Tree.actionOf e)) ∧
        ∀ slot, other.isExpanded slot = one.isExpanded slot ∧ other.pathCount slot = one.pathCount slot := by
  intro first second
  obtain ⟨s, hpulls, habreast, hdone⟩ := abreast_afterAll hticks (abreast_ofEngine hfresh depth hwhole sliced)
  refine ⟨fun time htime => hpulls.results_prefix htime, ?_⟩
  intro time evaluationTime hfirst hsecond
  obtain ⟨last, hnone⟩ := hdone hsecond
  have hlong : (pulledAll ticks second).length < time := by
    by_contra hshort
    have htimeUp := hpulls.timeUp (Nat.le_of_not_lt hshort)
    exact absurd (htimeUp.symm.trans (isDone_iff.mp hfirst)) (by simp)
  have hended := hpulls.run_to_end (Deepening.isSpent_of_unlimited habreast.unlimited) hnone hlong
  have htree : (first.expanded rules time).engine.tree = s.2.tree :=
    (congrArg (·.state.2.tree) hended).trans (congrArg Engine.tree (Deepening.engine_of_step_none hnone))
  obtain ⟨_, hwritten⟩ := written_tick rules time evaluationTime (s := first) (htree ▸ habreast.first)
  have htwins : Twins _ (afterAll ticks second).engine.tree := hwritten.symm.trans (htree ▸ habreast.twins)
  refine ⟨?_, htwins.moves, fun slot => ⟨htwins.isExpanded slot, htwins.pathCount slot⟩⟩
  rw [Graph.nodeList, Graph.nodeList, htwins.graph.nodes]

/-- A session that is cut after a step, meets with rules that fail, and then has the time that it needs. -/
theorem slices_make_no_difference_sample :
    let rules := Table.twoPly.rules none
    ∃ (fresh : Engine Place Float) (time : Nat), Engine.ofRules rules = .ok fresh ∧
      let ticks : List (Tick Place) := [⟨rules, 1, 1⟩, ⟨Table.twoPly.rules (some "out of order"), 5, 0⟩, ⟨rules, time, 9⟩]
      let first := ofEngine fresh 1 {}
      let second := ofEngine fresh 1 { maxSteps := .limited 2 }
      pulledAll ticks second <+: (first.refilled.expansionSlice rules time).results ∧
        (afterAll ticks second).engine.tree.graph.nodeList = (tick rules time 0 first).2.engine.tree.graph.nodeList := by
  intro rules
  obtain ⟨fresh, hfresh⟩ : ∃ fresh : Engine Place Float, Engine.ofRules rules = .ok fresh := ⟨_, rfl⟩
  have hwithin : rules.Within {p | p ∈ Table.twoPly.places} := Table.twoPly.within none
  have hfinite : ∀ p : Place, rules.initial = .ok p → _ := fun p _ => Table.finite_ids Table.twoPly none p.id
  have hfree : ({} : Configuration).maxExpansions = .unlimited := rfl
  have hlimited : ({ maxSteps := .limited 2 } : Configuration).maxExpansions = .unlimited := rfl
  obtain ⟨m, hwhole⟩ := comes_to_end_after_cuts hwithin Table.twoPly_answers hfinite Table.twoPly_acyclic hfresh 1 hfree
  obtain ⟨n, hsliced⟩ := comes_to_end_after_cuts hwithin Table.twoPly_answers hfinite Table.twoPly_acyclic hfresh 1 hlimited
  let cut : List (Tick Place) := [⟨rules, 1, 1⟩, ⟨Table.twoPly.rules (some "out of order"), 5, 0⟩]
  have hcut : ∀ k ∈ cut, k.rules.Falters rules := by simp [cut, rules, Table.twoPly.falters]
  have hticks : ∀ k ∈ cut ++ [⟨rules, m + n, 9⟩], k.rules.Falters rules := by simp [cut, rules, Table.twoPly.falters]
  have hfirst := hwhole [] (by simp) (m + n) 0 (Nat.le_add_right m n)
  have hsecond := hsliced cut hcut (m + n) 9 (Nat.le_add_left n m)
  have hended : ((ofEngine fresh 1 {}).refilled.expansionSlice rules (m + n)).ending = .done := isDone_iff.mp hfirst
  obtain ⟨hpulled, hsame⟩ := slices_make_no_difference hfresh 1 hfree { maxSteps := .limited 2 } hticks
  refine ⟨fresh, m + n, hfresh, hpulled (m + n) (.inl (by simp [hended])), (hsame (m + n) 0 hfirst ⟨_, ?_, hsecond⟩).1⟩
  exact List.mem_cons_of_mem _ (List.mem_cons_of_mem _ List.mem_cons_self)

end Session

end SearchLab.Game
