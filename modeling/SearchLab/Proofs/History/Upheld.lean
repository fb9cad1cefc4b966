import SearchLab.History
import SearchLab.Proofs.Edit

/-!
# What a log upholds

A change may be known to keep a property of the target, as long as its body has a property that it keeps too: done or
taken back, and whether it fails or not. A log of such changes keeps the property of the target wherever it goes, since
all that a catch-up does is to run its commands. Nothing has to be known of which commands those are, or of how far the
catch-up comes.

* `Upholds.execute`, `Upholds.revert` — one command;
* `Upholds.catchUp` — a catch-up.
-/

namespace SearchLab

variable {β σ : Type} [Reversible β σ]

/-- Changes keep a property of their bodies and one of the target, also where they fail. -/
structure Upholds (body : β → Prop) (target : σ → Prop) : Prop where
  applied : Edit.Keeps (fun s : β × σ => body s.1 ∧ target s.2) Reversible.apply
  reverted : Edit.Keeps (fun s : β × σ => body s.1 ∧ target s.2) Reversible.revert

/-- All commands of a log have bodies with a property, those put aside as well. -/
structure Log.Consists (body : β → Prop) (log : Log β) : Prop where
  commands : ∀ (i : Nat) (c : Command β), log.commands[i]? = some c → body c.body
  detached : ∀ d ∈ log.detached, body d.2.body

namespace Upholds

variable {body : β → Prop} {target : σ → Prop} (h : Upholds body target)

include h

theorem execute : Edit.Keeps (fun s : Command β × σ => body s.1.body ∧ target s.2) Command.execute := by
  rintro ⟨c, t⟩ ⟨hbody, htarget⟩
  have hkept := h.applied (c.body, t) ⟨hbody, htarget⟩
  unfold Edit.after Command.execute at *
  cases hdone : c.done with
  | true => simpa [hdone] using ⟨hbody, htarget⟩
  | false => cases hrun : Reversible.apply (c.body, t) <;> simpa [hdone, hrun] using hkept

theorem revert : Edit.Keeps (fun s : Command β × σ => body s.1.body ∧ target s.2) Command.revert := by
  rintro ⟨c, t⟩ ⟨hbody, htarget⟩
  have hkept := h.reverted (c.body, t) ⟨hbody, htarget⟩
  unfold Edit.after Command.revert at *
  cases hdone : c.done with
  | false => simpa [hdone] using ⟨hbody, htarget⟩
  | true => cases hrun : Reversible.revert (c.body, t) <;> simpa [hdone, hrun] using hkept

omit h in
/-- A command that a run has changed takes its place in the log. -/
theorem consists_replaced {log : Log β} (hlog : log.Consists body) {c : Command β} (hc : body c.body)
    (i executed : Nat) : Log.Consists body { log with commands := log.commands.setIfInBounds i c, executed } where
  commands := by
    intro j d hd
    rw [Array.getElem?_setIfInBounds] at hd
    split at hd
    · split at hd
      · cases hd
        exact hc
      · cases hd
    · exact hlog.commands j d hd
  detached := hlog.detached

/-- The first command put aside is taken back. -/
theorem revertDetached : Edit.Keeps (fun s : Log β × σ => s.1.Consists body ∧ target s.2) Log.revertDetached := by
  rintro ⟨log, t⟩ ⟨hlog, htarget⟩
  cases hdetached : log.detached with
  | nil => simpa [Edit.after, Log.revertDetached, hdetached] using ⟨hlog, htarget⟩
  | cons d rest =>
      obtain ⟨i, c⟩ := d
      have hc : body c.body := hlog.detached (i, c) (hdetached ▸ List.mem_cons_self)
      have hrest : ∀ d ∈ rest, body d.2.body := fun d hd => hlog.detached d (hdetached ▸ List.mem_cons_of_mem _ hd)
      have hkept := h.revert (c, t) ⟨hc, htarget⟩
      unfold Edit.after at hkept
      cases hrun : Command.revert (c, t) with
      | ok u s =>
          rw [hrun] at hkept
          simp only [Edit.after, Log.revertDetached, hdetached, hrun]
          exact ⟨{ hlog with detached := hrest }, hkept.2⟩
      | error e s =>
          rw [hrun] at hkept
          simp only [Edit.after, Log.revertDetached, hdetached, hrun]
          refine ⟨{ hlog with detached := fun d hd => ?_ }, hkept.2⟩
          rcases List.mem_cons.mp hd with rfl | hd
          · exact hkept.1
          · exact hrest d hd

/-- The first command that is not done is done. -/
theorem executeNext : Edit.Keeps (fun s : Log β × σ => s.1.Consists body ∧ target s.2) Log.executeNext := by
  rintro ⟨log, t⟩ ⟨hlog, htarget⟩
  cases hc : log.commands[log.executed]? with
  | none => simpa [Edit.after, Log.executeNext, hc] using ⟨hlog, htarget⟩
  | some c =>
      have hkept := h.execute (c, t) ⟨hlog.commands _ c hc, htarget⟩
      unfold Edit.after at hkept
      cases hrun : Command.execute (c, t) <;> rw [hrun] at hkept <;>
        simp only [Edit.after, Log.executeNext, hc, hrun] <;>
        exact ⟨consists_replaced hlog hkept.1 _ _, hkept.2⟩

/-- The last command that is done is taken back. -/
theorem revertLast : Edit.Keeps (fun s : Log β × σ => s.1.Consists body ∧ target s.2) Log.revertLast := by
  rintro ⟨log, t⟩ ⟨hlog, htarget⟩
  cases hc : log.commands[log.executed - 1]? with
  | none => simpa [Edit.after, Log.revertLast, hc] using ⟨hlog, htarget⟩
  | some c =>
      have hkept := h.revert (c, t) ⟨hlog.commands _ c hc, htarget⟩
      unfold Edit.after at hkept
      cases hrun : Command.revert (c, t) <;> rw [hrun] at hkept <;>
        simp only [Edit.after, Log.revertLast, hc, hrun] <;>
        exact ⟨consists_replaced hlog hkept.1 _ _, hkept.2⟩

omit h [Reversible β σ] in
theorem times {τ α : Type} {P : τ → Prop} {edit : Edit τ α} (hkeeps : Edit.Keeps P edit) (n : Nat) :
    Edit.Keeps P (Log.times edit n) := by
  induction n with
  | zero => exact .pure []
  | succ n ih => exact .bind hkeeps fun _ => .bind ih fun _ => .pure _

/-- **What its commands uphold, a log upholds**, wherever it is brought and however far it comes. -/
theorem catchUp : Edit.Keeps (fun s : Log β × σ => s.1.Consists body ∧ target s.2) Log.catchUp := by
  intro s hs
  exact Edit.Keeps.bind (times h.revertDetached _)
    (fun _ => .bind (times h.executeNext _) fun _ => .bind (times h.revertLast _) fun _ => .pure _) s hs

end Upholds

end SearchLab
