import SearchLab.Game.Session
import SearchLab.Proofs.Edit

/-!
# What a slice of steps comes to

A slice takes one step after another, and ends wherever it has to. What every step keeps, a slice keeps; and where
nothing is left to be done, a last step has said so.

* `Deepening.Stepped`, `Session.Evaluated` — what becomes of a step in either slice of a tick;
* `run_spec` — a slice is a row of steps that bring results, and an end;
* `Pulls.run_add` — whatever slices steps belonged to, a slice with enough time begins with them.
-/

namespace SearchLab.Game

/-! ## Steps -/

section

variable {π υ : Type} [Position π υ]

/-- What becomes of a step of a deepening search: nothing is left for it to expand, or it expands the node that it has come
to, which may fail. -/
inductive Deepening.Stepped (rules : Rules π) (s : Deepening × Engine π υ) :
    EStateM.Result Error (Deepening × Engine π υ) (Option Expansion) → Prop
  | finished {d : Deepening} (hseek : s.1.seek (isInner s.2.tree) = (none, d)) : Stepped rules s (.ok none (d, s.2))
  | failed {slot : Nat} {d : Deepening} {err : Error} {e : Engine π υ}
      (hseek : s.1.seek (isInner s.2.tree) = (some slot, d)) (hexpand : Engine.expandNode rules slot s.2 = .error err e) :
      Stepped rules s (.error err (d, e))
  | expanded {slot : Nat} {d : Deepening} {x : Expansion} {e : Engine π υ}
      (hseek : s.1.seek (isInner s.2.tree) = (some slot, d)) (hexpand : Engine.expandNode rules slot s.2 = .ok x e) :
      Stepped rules s (.ok (some x) (d.opened (x.moves.map Move.slot), e))

theorem Deepening.step_stepped (rules : Rules π) (s : Deepening × Engine π υ) : Stepped rules s (step rules s) := by
  obtain ⟨d, e⟩ := s
  cases hseek : d.seek (isInner e.tree) with
  | mk found d' =>
      cases found with
      | none =>
          simp only [step, hseek]
          exact .finished hseek
      | some slot =>
          cases hexpand : Engine.expandNode rules slot e with
          | error err e' =>
              simp only [step, hseek, hexpand]
              exact .failed (s := (d, e)) hseek hexpand
          | ok x e' =>
              simp only [step, hseek, hexpand]
              exact .expanded (s := (d, e)) hseek hexpand

variable [Score υ]

omit [Position π υ] in
/-- What becomes of a step of an evaluation: it fails, nothing is left for it to find, or it writes a verdict down. -/
inductive Session.Evaluated (s : Evaluation υ × Engine π υ) :
    EStateM.Result Error (Evaluation υ × Engine π υ) (Option (Verdict υ)) → Prop
  | failed {err : Error} {ev : Evaluation υ} (hseek : Evaluation.seek s.2.tree s.1 = (.error err, ev)) :
      Evaluated s (.error err (ev, s.2))
  | finished {ev : Evaluation υ} (hseek : Evaluation.seek s.2.tree s.1 = (.ok none, ev)) : Evaluated s (.ok none (ev, s.2))
  | judged {v : Verdict υ} {ev : Evaluation υ} (hseek : Evaluation.seek s.2.tree s.1 = (.ok (some v), ev)) :
      Evaluated s (.ok (some v) (ev, { s.2 with tree := s.2.tree.settle v, steps := s.2.steps.spent }))

theorem Session.evaluationStep_evaluated (s : Evaluation υ × Engine π υ) : Evaluated s (evaluationStep s) := by
  obtain ⟨ev, e⟩ := s
  cases hseek : Evaluation.seek e.tree ev with
  | mk found ev' =>
      simp only [evaluationStep, Evaluation.step, hseek]
      cases found with
      | error err => exact .failed hseek
      | ok found =>
          cases found with
          | none => exact .finished hseek
          | some v => exact .judged hseek

end

namespace Slice

variable {σ α : Type} {isSpent : σ → Bool} {step : Edit σ (Option α)} {P : σ → Prop}

/-! ## Slices -/

/-- Some steps in a row, each of which finds a budget and brings a result. -/
inductive Pulls (isSpent : σ → Bool) (step : Edit σ (Option α)) : σ → List α → σ → Prop
  | start (s : σ) : Pulls isSpent step s [] s
  | more {s s₁ s' : σ} {a : α} {results : List α} (hleft : isSpent s = false) (hstep : step s = .ok (some a) s₁)
      (hrest : Pulls isSpent step s₁ results s') : Pulls isSpent step s (a :: results) s'

/-- How a slice ends behind its last result: by the time or the budget, or by a step that brings none. -/
inductive Ends (isSpent : σ → Bool) (step : Edit σ (Option α)) : σ → Ending → σ → Prop
  | timeUp (s : σ) : Ends isSpent step s .timeUp s
  | spent {s : σ} (hspent : isSpent s = true) : Ends isSpent step s .spent s
  | failed {s s' : σ} {e : Error} (hleft : isSpent s = false) (hstep : step s = .error e s') :
      Ends isSpent step s (.failed e) s'
  | done {s s' : σ} (hleft : isSpent s = false) (hstep : step s = .ok none s') : Ends isSpent step s .done s'

/-- **What a slice does**: it takes steps in a row, and ends. -/
theorem run_spec (isSpent : σ → Bool) (step : Edit σ (Option α)) (time : Nat) (s : σ) :
    ∃ s', Pulls isSpent step s (run isSpent step time s).results s' ∧
      Ends isSpent step s' (run isSpent step time s).ending (run isSpent step time s).state := by
  induction time generalizing s with
  | zero => exact ⟨s, .start s, .timeUp s⟩
  | succ time ih =>
      rw [run]
      cases hspent : isSpent s with
      | true => exact ⟨s, .start s, .spent hspent⟩
      | false =>
          cases hresult : step s with
          | error e s' => exact ⟨s, .start s, .failed hspent hresult⟩
          | ok found s₁ =>
              cases found with
              | none => exact ⟨s, .start s, .done hspent hresult⟩
              | some a =>
                  obtain ⟨s', hpulls, hends⟩ := ih s₁
                  exact ⟨s', .more hspent hresult hpulls, hends⟩

/-! ### What every step keeps -/

theorem Pulls.keeps {s s' : σ} {results : List α} (h : Pulls isSpent step s results s')
    (hstep : ∀ s, P s → P (step.after s)) (hs : P s) : P s' := by
  induction h with
  | start => exact hs
  | more _ hyields _ ih => exact ih (Edit.after_ok hyields ▸ hstep _ hs)

/-- What every step keeps, a slice keeps. -/
theorem run_keeps (hstep : ∀ s, P s → P (step.after s)) (time : Nat) {s : σ} (h : P s) :
    P (run isSpent step time s).state := by
  obtain ⟨s', hpulls, hends⟩ := run_spec isSpent step time s
  have hlast : P s' := hpulls.keeps hstep h
  generalize (run isSpent step time s).ending = ending at hends
  generalize (run isSpent step time s).state = state at hends
  cases hends with
  | timeUp | spent => exact hlast
  | failed _ hfails => exact Edit.after_error hfails ▸ hstep s' hlast
  | done _ hnone => exact Edit.after_ok hnone ▸ hstep s' hlast

/-- A slice that ends with nothing left to be done ends with a step that has found nothing. -/
theorem run_done (hstep : ∀ s, P s → P (step.after s)) (time : Nat) {s : σ} (h : P s)
    (hdone : (run isSpent step time s).ending = .done) :
    ∃ s', P s' ∧ step s' = .ok none (run isSpent step time s).state := by
  obtain ⟨s', hpulls, hends⟩ := run_spec isSpent step time s
  rw [hdone] at hends
  cases hends with
  | done _ hnone => exact ⟨s', hpulls.keeps hstep h, hnone⟩

/-! ### Steps in a row -/

namespace Pulls

variable {s s' s'' : σ} {results more : List α}

theorem trans (h : Pulls isSpent step s results s') (h' : Pulls isSpent step s' more s'') :
    Pulls isSpent step s (results ++ more) s'' := by
  induction h with
  | start => exact h'
  | more hleft hstep _ ih => exact .more hleft hstep (ih h')

/-- Steps up to where nothing is left to be done include all steps in a row from the same start. -/
theorem rest (h : Pulls isSpent step s results s') {all : List α} {last : σ} (hall : Pulls isSpent step s all last)
    (hdone : step last = .ok none s'') : ∃ rest, all = results ++ rest ∧ Pulls isSpent step s' rest last := by
  induction h generalizing all with
  | start => exact ⟨all, rfl, hall⟩
  | more hleft hstep _ ih =>
      cases hall with
      | start => cases hstep.symm.trans hdone
      | more _ hstep' hrest' =>
          cases hstep.symm.trans hstep'
          obtain ⟨rest, rfl, hbehind⟩ := ih hrest'
          exact ⟨rest, rfl, hbehind⟩

/-- A slice with the time for some steps, and for more, takes them first. -/
theorem run_add (h : Pulls isSpent step s results s') (time : Nat) :
    run isSpent step (results.length + time) s =
      { run isSpent step time s' with results := results ++ (run isSpent step time s').results } := by
  induction h with
  | start => rw [List.length_nil, Nat.zero_add, List.nil_append]
  | more hleft hstep _ ih =>
      rw [List.length_cons, Nat.add_right_comm, run, hleft, hstep]
      dsimp only
      rw [ih, if_neg Bool.false_ne_true, List.cons_append]

/-- A slice without the time for a further step ends when its time is up. -/
theorem timeUp (h : Pulls isSpent step s results s') {time : Nat} (hshort : time ≤ results.length) :
    (run isSpent step time s).ending = .timeUp := by
  induction h generalizing time with
  | start =>
      obtain rfl : time = 0 := Nat.le_zero.mp hshort
      rfl
  | more hleft hstep _ ih =>
      cases time with
      | zero => rfl
      | succ time =>
          rw [run, hleft, hstep]
          exact ih (Nat.le_of_succ_le_succ hshort)

/-- Where nothing is left to be done, no step brings a result. -/
theorem of_done (h : Pulls isSpent step s results s') (hdone : step s = .ok none s'') : results = [] ∧ s' = s := by
  cases h with
  | start => exact ⟨rfl, rfl⟩
  | more hleft hstep _ => cases hstep.symm.trans hdone

/-- A slice that comes to its end with time left has taken all the steps. -/
theorem run_to_end (h : Pulls isSpent step s results s') (hleft : isSpent s' = false) (hdone : step s' = .ok none s'')
    {time : Nat} (hlong : results.length < time) : run isSpent step time s = ⟨results, .done, s''⟩ := by
  obtain ⟨rest, rfl⟩ := Nat.exists_eq_add_of_lt hlong
  rw [Nat.add_assoc, h.run_add, run, hleft, hdone]
  simp

/-- A slice that ends otherwise than by its time, or that has the time, takes the steps first. -/
theorem results_prefix (h : Pulls isSpent step s results s') {time : Nat}
    (htime : (run isSpent step time s).ending ≠ .timeUp ∨ results.length ≤ time) :
    results <+: (run isSpent step time s).results := by
  have hlong : results.length ≤ time := by
    rcases htime with hended | hlong
    · exact Nat.le_of_not_le fun hshort => hended (h.timeUp hshort)
    · exact hlong
  obtain ⟨rest, rfl⟩ := Nat.exists_eq_add_of_le hlong
  rw [h.run_add]
  exact List.prefix_append _ _

end Pulls

end Slice

end SearchLab.Game
