import SearchLab.Proofs.Game.Roots
import SearchLab.Proofs.Game.Verdicts

/-!
# What is written down in a tree

Beside a position stand its worth and its best moves, as the last verdict on it has told them. They stay there when an
evaluation is given up for another root, and they are right as far as that can be said then: of moves to one position
that have come to the same, and of values at clear positions, behind which all is known as well.

* `Tree.Justified` — a tree in which verdicts only are written down;
* `justified_tick`, `justified_setRoot`, `justified_runAll` — so it is between the ticks of any session.
-/

namespace SearchLab.Game

open SearchLab.Game.Tree (Joins Retains)
open SearchLab.Game.Evaluation (Told approach noted)

variable {π υ : Type} [Position π υ] [Score υ]

/-- What is written down in a tree was told by verdicts, and what a clear position leads to is known as well. -/
structure Tree.Justified (t : Tree π υ) : Prop where
  blank : ∀ {slot e}, t.entry? slot = some e → e.utility = none → e.bestMoves = []
  told : ∀ {slot e u}, t.entry? slot = some e → e.utility = some u → Told (approach t) ⟨slot, u, e.bestMoves⟩
  known : ∀ {a b}, Evaluation.Clear (approach t) a → Evaluation.Onward (approach t) a b → (t.utility? a).isSome = true →
    (t.utility? b).isSome = true

namespace Tree.Justified

variable {t t' : Tree π υ}

/-- What is written down hangs on the entries alone. -/
theorem of_entries (h : t.Justified) (hentries : t'.entries = t.entries) : t'.Justified := by
  have hentry : ∀ slot, t'.entry? slot = t.entry? slot := fun slot => by rw [ entry?, entry?, hentries]
  have hutility : t'.utility? = t.utility? := funext fun slot => by rw [Tree.utility?, Tree.utility?, hentry]
  have happroach : approach t' = approach t := Evaluation.approach_of_sameMoves (.of_entries hentries)
  constructor
  · exact fun he hu => h.blank ((hentry _).symm.trans he) hu
  · exact fun he hu => happroach ▸ h.told ((hentry _).symm.trans he) hu
  · rw [happroach, hutility]
    exact h.known

/-- Nothing is left to be wrong when all was forgotten. -/
theorem resetUtilities (t : Tree π υ) : t.resetUtilities.Justified where
  blank {slot e} he _ := by
    rw [entry?_resetUtilities] at he
    obtain ⟨old, _, rfl⟩ := Option.map_eq_some_iff.mp he
    rfl
  told {slot e u} he hu := by
    rw [entry?_resetUtilities] at he
    obtain ⟨old, _, rfl⟩ := Option.map_eq_some_iff.mp he
    cases hu
  known _ _ ha := by
    rw [Evaluation.utility?_resetUtilities] at ha
    cases ha

/-- Nothing is written down beside what joins a tree. -/
theorem joins {P : π → Prop} (h : t.Justified) (hjoins : Joins P t t') : t'.Justified where
  blank {slot e} he hu := by
    cases hold : t.entry? slot with
    | none =>
        obtain ⟨p, _, rfl⟩ := hjoins.joined hold he
        rfl
    | some old =>
        obtain rfl := Option.some.inj ((hjoins.kept hold).symm.trans he)
        exact h.blank hold hu
  told {slot e u} he hu := by
    cases hold : t.entry? slot with
    | none =>
        obtain ⟨p, _, rfl⟩ := hjoins.joined hold he
        cases hu
    | some old =>
        obtain rfl := Option.some.inj ((hjoins.kept hold).symm.trans he)
        exact (h.told hold hu).mono (Evaluation.approach_of_retains (.of_joins hjoins))
  known {a b} hclear hab ha := by
    rw [Evaluation.utility?_joins hjoins] at ha ⊢
    have hmore := Evaluation.approach_of_retains (Retains.of_joins hjoins)
    -- A position of which something is known was there before, with the same moves.
    obtain ⟨u, hu⟩ := Option.isSome_iff_exists.mp ha
    obtain ⟨e, he, _⟩ := Option.bind_eq_some_iff.mp hu
    have hsame : approach t a = approach t' a := by simp only [approach, he, hjoins.kept he]
    obtain ⟨player, moves, hinner, hmove⟩ := hab
    exact h.known (hclear.anti hmore) ⟨player, moves, hsame.trans hinner, hmove⟩ ha

/-- A verdict is written down. -/
theorem settle {root : Nat} {start : Nat → Option υ} {s s' : Evaluation υ} (h : t.Justified)
    (hfollows : Evaluation.Follows root start t s) {v : Verdict υ} (hseek : Evaluation.seek t s = (.ok (some v), s')) :
    (t.settle v).Justified := by
  have hlive := (hfollows.found hseek).2.1
  have hsame : approach (t.settle v) = approach t := Evaluation.approach_of_sameMoves (sameMoves_settle t v)
  have hsought := Evaluation.seek_sought t s
  rw [hseek] at hsought
  cases hsought with
  | @found _ s₁ _ hgoes hturn =>
      have hbefore : Evaluation.Follows root start t s₁ := ⟨hfollows.right, hfollows.goes.trans hgoes⟩
      constructor
      · intro slot e he hu
        rw [entry?_settle] at he
        split at he
        · obtain ⟨old, _, rfl⟩ := Option.map_eq_some_iff.mp he
          cases hu
        · exact h.blank he hu
      · intro slot e u he hu
        rw [entry?_settle] at he
        rw [hsame]
        split at he
        · rename_i hslot
          obtain ⟨old, _, rfl⟩ := Option.map_eq_some_iff.mp he
          obtain rfl := Option.some.inj hu
          subst hslot
          exact hturn.told hbefore.underway hbefore.accounts
        · exact h.told he hu
      · intro a b hclear hab ha
        rw [hsame] at hclear hab
        rw [Evaluation.utility?_settle t hlive] at ha ⊢
        refine Evaluation.isSome_noted ?_ v
        by_cases hslot : a = v.slot
        · subst hslot
          exact hturn.known_behind hbefore.underway hbefore.accounts hclear hab
        · rw [noted, Function.update_of_ne hslot] at ha
          exact h.known hclear hab ha

theorem ofRoot (p : π) : (Tree.ofRoot p : Tree π υ).Justified := by
  obtain ⟨_, _, hall⟩ := ofRoot_spec (υ := υ) p
  constructor
  · intro slot e he _
    rw [hall he]
  · intro slot e u he hu
    rw [hall he] at hu
    cases hu
  · intro a b _ hab _
    obtain ⟨player, moves, hinner, _⟩ := hab
    obtain ⟨e, he, hmoves, _⟩ := Evaluation.entry_of_inner hinner
    rw [hall he] at hmoves
    cases hmoves

end Tree.Justified

namespace Session

variable {rules : Rules π} {G : Set π} {start : Nat → Option υ} {s : Session π υ}

/-- A tree that has grown is written down in anew. -/
theorem justified_settled {before : Tree π υ} (hgrown : Grown rules G before s.engine) (h : before.Justified) :
    s.settled.2.engine.tree.Justified := by
  unfold settled Engine.takeGrown
  cases hflag : s.engine.grown with
  | true => exact .resetUtilities s.engine.tree
  | false => exact hgrown.same hflag ▸ h

/-- **A tick writes down verdicts only.** -/
theorem justified_tick (hwithin : rules.Within G) (expansionTime evaluationTime : Nat)
    (h : Tracing rules G s.root start s.current) (hjustified : s.engine.tree.Justified) :
    (tick rules expansionTime evaluationTime s).2.engine.tree.Justified := by
  have hready : (s.expanded rules expansionTime).settled.2.engine.tree.Justified :=
    justified_settled (grown_expanded hwithin expansionTime h.inStep h.obeys) hjustified
  have hsteps : ∀ s' : Evaluation υ × Engine π υ,
      Tracing rules G (s.expanded rules expansionTime).settled.2.root
          ((Call.tick expansionTime evaluationTime).carried rules s start) s' ∧ s'.2.tree.Justified →
        Tracing rules G (s.expanded rules expansionTime).settled.2.root
            ((Call.tick expansionTime evaluationTime).carried rules s start) (evaluationStep.after s') ∧
          (evaluationStep.after s').2.tree.Justified := by
    rintro s' ⟨htracing, hjustified⟩
    refine ⟨htracing.step, ?_⟩
    have hevaluated := evaluationStep_evaluated s'
    unfold Edit.after
    generalize evaluationStep s' = r at hevaluated
    cases hevaluated with
    | failed | finished => exact hjustified
    | judged hseek => exact hjustified.settle htracing.follows hseek
  have hlast : (s.evaluating rules expansionTime evaluationTime).state.2.tree.Justified :=
    (Slice.run_keeps hsteps evaluationTime ⟨tracing_between hwithin expansionTime evaluationTime h, hready⟩).2
  rw [(tick_eq rules expansionTime evaluationTime s).2]
  exact Tree.Justified.of_entries hlast rfl

/-- Going on from another position writes nothing down. -/
theorem justified_setRoot {p : π} (hstep : s.engine.tree.InStep) (h : s.engine.tree.Justified) :
    ((setRoot p).after s).engine.tree.Justified := by
  obtain ⟨slot, tree, hset, _, _, hjoins⟩ := Tree.setRoot_spec hstep p
  have hjoined : Tree.Justified { tree with root := slot } := (h.joins hjoins).of_entries rfl
  by_cases hroot : slot = s.root
  · rw [after_setRoot_of_same hset hroot]
    exact hjoined
  · rw [after_setRoot_of_other hset hroot]
    exact hjoined

/-- **Between the ticks of a session** verdicts only are written down in its tree. -/
theorem justified_runAll (hwithin : rules.Within G) {calls : List (Call π)} (hcalls : ∀ p, .setRoot p ∈ calls → p ∈ G)
    (h : Tracing rules G s.root start s.current) (hjustified : s.engine.tree.Justified) :
    (runAll rules calls s).engine.tree.Justified := by
  induction calls generalizing s start with
  | nil => exact hjustified
  | cons call rest ih =>
      have hrest : ∀ p, .setRoot p ∈ rest → p ∈ G := fun p hp => hcalls p (List.mem_cons_of_mem call hp)
      cases call with
      | tick expansionTime evaluationTime =>
          exact ih hrest (tracing_tick hwithin expansionTime evaluationTime h).1
            (justified_tick hwithin expansionTime evaluationTime h hjustified)
      | setRoot p =>
          exact ih hrest (tracing_setRoot (hcalls p List.mem_cons_self) h) (justified_setRoot h.inStep hjustified)

end Session

end SearchLab.Game
