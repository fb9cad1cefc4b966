import SearchLab.History

/-!
# Changes that stand

A body that has changed a target may be asked, perhaps more than once, to take its change back. It holds the
change from the moment it was applied for as long as it only refuses. Commands that hold their changes one on
top of the other form a chain: it says how the target came to be what it is, and the last link is the only one
that may be taken back.

* `Faithful` — a change that is taken back is gone, and one that fails leaves the target alone;
* `Leads` — a chain of commands between two states of the target.
-/

namespace SearchLab

namespace Reversible

variable {β σ : Type} [Reversible β σ]

/-- A body holds a change of the target: it was applied, and has at most refused to be taken back since. -/
inductive Holds : β → σ → σ → Prop
  | applied {b body : β} {before after : σ}
      (happly : Reversible.apply (b, before) = .ok () (body, after)) :
      Holds body before after
  | refused {b body : β} {before after after' : σ} {e : Error}
      (hheld : Holds b before after)
      (hrevert : Reversible.revert (b, after) = .error e (body, after')) :
      Holds body before after

/-- Taking back undoes what was done, and whatever fails leaves the target as it was. -/
structure Faithful (β σ : Type) [Reversible β σ] : Prop where
  apply_failed : ∀ {b body : β} {before after : σ} {e : Error},
    Reversible.apply (b, before) = .error e (body, after) → after = before
  revert_undoes : ∀ {b body : β} {before after target : σ},
    Holds b before after → Reversible.revert (b, after) = .ok () (body, target) → target = before
  revert_failed : ∀ {b body : β} {before after target : σ} {e : Error},
    Holds b before after → Reversible.revert (b, after) = .error e (body, target) → target = after

/-- A function says what every body does to a target when it succeeds. -/
def Describes (effect : β → σ → σ) : Prop :=
  ∀ {b : β} {before after : σ}, Holds b before after → after = effect b before

/-- A body raises an error of its own on a target, when it is applied or when it is taken back. -/
def Raises (b : β) (t : σ) (e : Error) : Prop :=
  ∃ (body : β) (t' : σ),
    Reversible.apply (b, t) = .error e (body, t') ∨ Reversible.revert (b, t) = .error e (body, t')

end Reversible

open Reversible

variable {β σ : Type} [Reversible β σ]

/-- Commands that hold their changes one on top of the other lead from one state of the target to another. -/
def Leads : σ → List (Command β) → σ → Prop
  | t, [], u => t = u
  | t, c :: cs, u => ∃ s, Holds c.body t s ∧ Leads s cs u

/-- A chain is cut between any two of its links. -/
theorem leads_append {t u : σ} {cs ds : List (Command β)} :
    Leads t (cs ++ ds) u ↔ ∃ s, Leads t cs s ∧ Leads s ds u := by
  induction cs generalizing t with
  | nil => simp [Leads]
  | cons c cs ih =>
      simp only [List.cons_append, Leads, ih]
      constructor
      · rintro ⟨r, hc, s, hcs, hds⟩
        exact ⟨s, ⟨r, hc, hcs⟩, hds⟩
      · rintro ⟨s, ⟨r, hc, hcs⟩, hds⟩
        exact ⟨r, hc, s, hcs, hds⟩

/-- The last link of a chain holds the change that came last. -/
theorem leads_concat {t u : σ} {cs : List (Command β)} {c : Command β} :
    Leads t (cs ++ [c]) u ↔ ∃ s, Leads t cs s ∧ Holds c.body s u := by
  simp [leads_append, Leads]

/-- Where one function says what each command does, the end of a chain is what they do in turn. -/
theorem Leads.eq_foldl {effect : β → σ → σ} (heffect : Describes effect) {t u : σ}
    {cs : List (Command β)} (h : Leads t cs u) :
    u = cs.foldl (fun s c => effect c.body s) t := by
  induction cs generalizing t with
  | nil => exact h.symm
  | cons c cs ih =>
      obtain ⟨s, hc, hcs⟩ := h
      rw [List.foldl_cons, ← heffect hc]
      exact ih hcs

namespace Command

/-- A command that is not done runs its body. -/
theorem execute_of_not_done {c : Command β} {t : σ} (h : c.done = false) :
    Command.execute (c, t) =
      match Reversible.apply (c.body, t) with
      | .ok _ (body, t') => .ok () ({ c with body, done := true }, t')
      | .error e (body, t') => .error e ({ c with body }, t') := by
  simp only [Command.execute, h]
  rfl

/-- A command that is done takes its body back. -/
theorem revert_of_done {c : Command β} {t : σ} (h : c.done = true) :
    Command.revert (c, t) =
      match Reversible.revert (c.body, t) with
      | .ok _ (body, t') => .ok () ({ c with body, done := false }, t')
      | .error e (body, t') => .error e ({ c with body }, t') := by
  simp only [Command.revert, h]
  rfl

end Command

end SearchLab
