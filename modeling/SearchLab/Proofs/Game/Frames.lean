import SearchLab.Proofs.Game.Runs

/-!
# What the frames of an evaluation have gone through

A frame has gone through the first moves of its position, and each of them has had an outcome: what was noted of the
position behind it, or nothing where the move leads back into the line. As long as the frame is on the stack, this goes
on to be so, for nothing is noted of the positions on the line, and what is noted of others stays.

* `Accounts` — the frames of a stack, with the outcomes of the moves that they have gone through;
* `Accounts.turn`, `Follows.accounts` — it is so in any evaluation that has come from its root to where it is;
* `Underway.verdict_last` — the verdict on the root is the last one.
-/

namespace SearchLab.Game.Evaluation

open Relation (ReflTransGen)

variable {υ : Type} [Score υ] {look : Nat → Except Error (Approach υ)} {notes : Nat → Option υ}

omit [Score υ] in
/-- What is known stays known behind a verdict. -/
theorem isSome_noted {slot : Nat} (h : (notes slot).isSome = true) (v : Verdict υ) :
    (noted notes (some v) slot).isSome = true := by
  by_cases hslot : slot = v.slot
  · simp [noted, hslot]
  · rwa [noted, Function.update_of_ne hslot]

/-! ## Outcomes -/

/-- A frame has gone through the first moves of its position, and the outcomes are of a sort. -/
def Frame.Collects (look : Nat → Except Error (Approach υ)) (P : Move × υ → Prop) (f : Frame υ) : Prop :=
  ∃ outcomes, f.Passed look outcomes ∧ ∀ o ∈ outcomes, P o

namespace Frame.Collects

variable {P Q : Move × υ → Prop} {f : Frame υ}

theorem enter {slot : Nat} {player : Player} {moves : List Move} (happroach : look slot = .ok (.inner player moves)) :
    Collects look P ({ slot, player, moves } : Frame υ) :=
  ⟨[], ⟨happroach, rfl⟩, by simp⟩

theorem imp (h : f.Collects look P) (hPQ : ∀ o, P o → Q o) : f.Collects look Q := by
  obtain ⟨outcomes, hpassed, hall⟩ := h
  exact ⟨outcomes, hpassed, fun o ho => hPQ o (hall o ho)⟩

theorem absorb (h : f.Collects look P) {move : Move} {rest : List Move} (hmoves : f.moves = move :: rest) {u : υ}
    (hu : P (move, u)) : (f.absorb u move rest).Collects look P := by
  obtain ⟨outcomes, hpassed, hall⟩ := h
  refine ⟨_, hpassed.absorb hmoves u, fun o ho => ?_⟩
  rcases List.mem_append.mp ho with ho | ho
  · exact hall o ho
  · rw [List.mem_singleton.mp ho]
    exact hu

end Frame.Collects

/-- What a move came to: what is noted of the position behind it, or even where that is on the line. -/
def Accounted (notes : Nat → Option υ) (line : List (Frame υ)) (o : Move × υ) : Prop :=
  notes o.1.slot = some o.2 ∨ notes o.1.slot = none ∧ isOnLine ⟨none, line⟩ o.1.slot = true ∧ o.2 = Score.zero

/-- Moves to one position have come to the same. -/
theorem Accounted.unique {line : List (Frame υ)} {o o' : Move × υ} (h : Accounted notes line o)
    (h' : Accounted notes line o') (hslot : o.1.slot = o'.1.slot) : o.2 = o'.2 := by
  rcases h with h | ⟨hnone, _, hzero⟩ <;> rcases h' with h' | ⟨hnone', _, hzero'⟩
  · exact Option.some.inj (h.symm.trans (hslot ▸ h'))
  · cases h.symm.trans (hslot ▸ hnone')
  · cases h'.symm.trans (hslot ▸ hnone)
  · exact hzero.trans hzero'.symm

/-- All that the frames of a stack have gone through is accounted for. -/
inductive Accounts (look : Nat → Except Error (Approach υ)) (notes : Nat → Option υ) : List (Frame υ) → Prop
  | nil : Accounts look notes []
  | cons {f : Frame υ} {below : List (Frame υ)} (hf : f.Collects look (Accounted notes (f :: below)))
      (hbelow : Accounts look notes below) : Accounts look notes (f :: below)

namespace Accounts

variable {root : Nat} {f : Frame υ} {below stack : List (Frame υ)}

omit [Score υ] in
theorem isOnLine_cons {f' : Frame υ} (hslot : f'.slot = f.slot) (slot : Nat) :
    isOnLine ⟨none, f' :: below⟩ slot = isOnLine ⟨none, f :: below⟩ slot := by
  simp [isOnLine, hslot]

/-- A note on a position of which nothing was noted, and which is not on the line. -/
theorem note (h : Accounts look notes stack) {slot : Nat} (hnone : notes slot = none)
    (hoff : ∀ f ∈ stack, f.slot ≠ slot) (u : υ) : Accounts look (Function.update notes slot (some u)) stack := by
  induction h with
  | nil => exact .nil
  | @cons f below hf _ ih =>
      refine .cons (hf.imp fun o ho => ?_) (ih fun g hg => hoff g (List.mem_cons_of_mem f hg))
      rcases ho with hnoted | ⟨hopen, hline, hzero⟩
      · have hother : o.1.slot ≠ slot := fun hsame => by rw [hsame, hnone] at hnoted; cases hnoted
        exact .inl ((Function.update_of_ne hother _ _).trans hnoted)
      · obtain ⟨g, hg, hslot⟩ := on_line hline
        have hother : o.1.slot ≠ slot := hslot ▸ hoff g hg
        exact .inr ⟨(Function.update_of_ne hother _ _).trans hopen, hline, hzero⟩

/-- The frame on top takes note of a move. -/
theorem absorb (h : Accounts look notes (f :: below)) {move : Move} {rest : List Move} (hmoves : f.moves = move :: rest)
    {u : υ} (hu : Accounted notes (f :: below) (move, u)) : Accounts look notes (f.absorb u move rest :: below) := by
  cases h with
  | cons hf hbelow =>
      refine .cons ((hf.absorb hmoves hu).imp fun o ho => ?_) hbelow
      unfold Accounted
      rw [isOnLine_cons (Frame.slot_absorb f u move rest)]
      exact ho

/-- **A turn leaves all accounted for.** -/
theorem turn {s s' : Evaluation υ} {found : Option (Verdict υ)} (h : Accounts look notes s.stack)
    (hunderway : Underway look root (s, notes)) (hopen : Unsettled root (s, notes)) (hturn : Turn look notes s found s') :
    Accounts look (noted notes found) s'.stack := by
  have hnew := (hopen.turn hunderway hturn).2
  cases hturn with
  | leafRoot happroach =>
      cases hunderway with
      | fresh _ => exact .nil
  | enterRoot happroach => exact .cons (.enter happroach) h
  | @close f below hmoves =>
      cases h with
      | cons _ hbelow =>
          cases hunderway.line with
          | start _ _ => exact .nil
          | reply _ _ _ _ hoff =>
              rcases hnew _ rfl with hnone | hlast
              · exact hbelow.note hnone hoff _
              · cases hlast
  | known hmoves hnoted => exact h.absorb hmoves (.inl hnoted)
  | back hmoves hnone hline => exact h.absorb hmoves (.inr ⟨hnone, hline, rfl⟩)
  | leaf _ hnone hoff _ => exact h.note hnone (off_line hoff) _
  | enter _ _ _ happroach => exact .cons (.enter happroach) h

/-- A position whose moves have all been gone through leads to positions of which something is noted, or that are on the
line. -/
theorem noted_or_onLine (h : Accounts look notes (f :: below)) (hmoves : f.moves = []) {slot : Nat}
    (hslot : Onward look f.slot slot) : (notes slot).isSome = true ∨ isOnLine ⟨none, f :: below⟩ slot = true := by
  cases h with
  | cons hf _ =>
      obtain ⟨outcomes, ⟨happroach, _⟩, hall⟩ := hf
      obtain ⟨player, moves, happroach', m, hm, rfl⟩ := hslot
      rw [hmoves, List.append_nil] at happroach
      injection Except.ok.inj (happroach.symm.trans happroach') with _ hsame
      obtain ⟨o, ho, rfl⟩ := List.mem_map.mp (hsame ▸ hm)
      rcases hall o ho with hnoted | ⟨_, hline, _⟩
      · exact .inl (by rw [hnoted, Option.isSome_some])
      · exact .inr hline

end Accounts

/-- **What every turn keeps** of an evaluation on its way, with all accounted for, holds wherever it has come to. -/
theorem Follows.carry {π : Type} [Position π υ] {t : Tree π υ} {root : Nat} {start : Nat → Option υ} {s : Evaluation υ}
    (h : Follows root start t s) {P : Evaluation υ × (Nat → Option υ) → Prop} (hbegin : P (Evaluation.ofRoot root, start))
    (hkeeps : ∀ {s s' : Evaluation υ} {notes : Nat → Option υ} {found : Option (Verdict υ)},
      Underway (approach t) root (s, notes) → Accounts (approach t) notes s.stack → P (s, notes) →
        Turn (approach t) notes s found s' → P (s', noted notes found)) :
    Accounts (approach t) t.utility? s.stack ∧ P (s, t.utility?) := by
  have hall : ∀ c, ReflTransGen (Goes (approach t)) (Evaluation.ofRoot root, start) c →
      Unsettled root c ∧ Accounts (approach t) c.2 c.1.stack ∧ P c := by
    intro c hgoes
    induction hgoes with
    | refl => exact ⟨fun f hf => absurd hf List.not_mem_nil, .nil, hbegin⟩
    | tail hbefore hturn ih =>
        obtain ⟨hopen, haccounts, hp⟩ := ih
        have hmiddle := (Underway.fresh h.right).goes hbefore
        obtain ⟨hturn⟩ := hturn
        exact ⟨(hopen.turn hmiddle hturn).1, haccounts.turn hmiddle hopen hturn, hkeeps hmiddle haccounts hp hturn⟩
  exact (hall _ h.goes).2

/-- All is accounted for in an evaluation that has come from its root to where it is. -/
theorem Follows.accounts {π : Type} [Position π υ] {t : Tree π υ} {root : Nat} {start : Nat → Option υ} {s : Evaluation υ}
    (h : Follows root start t s) : Accounts (approach t) t.utility? s.stack :=
  (h.carry (P := fun _ => True) trivial fun _ _ _ _ => trivial).1

/-! ## Verdicts -/

namespace Underway

variable {root : Nat} {s s' : Evaluation υ} {v : Verdict υ}

/-- The root leads to all positions on which a verdict is given. -/
theorem verdict_reached (h : Underway look root (s, notes)) (hturn : Turn look notes s (some v) s') :
    ReflTransGen (Onward look) root v.slot := by
  cases hturn with
  | leafRoot _ =>
      cases h with
      | fresh _ => exact .refl
  | close _ => exact h.line.reached List.mem_cons_self
  | leaf hmoves _ _ _ =>
      have htop := h.line.gathers List.mem_cons_self
      exact (h.line.reached List.mem_cons_self).tail (htop.onward (hmoves ▸ List.mem_cons_self))

/-- **The verdict on the root is the last one**, and no other is. -/
theorem verdict_last (h : Underway look root (s, notes)) (hturn : Turn look notes s (some v) s') :
    v.slot = root ↔ s' = ⟨none, []⟩ := by
  cases hturn with
  | leafRoot _ =>
      cases h with
      | fresh _ => exact iff_of_true rfl rfl
  | close _ =>
      cases h.line with
      | start _ hroot => exact iff_of_true hroot rfl
      | reply hline _ _ _ hoff =>
          obtain ⟨g, hg, hroot⟩ := hline.root_mem
          exact iff_of_false (fun hf => hoff g hg (hroot.trans hf.symm)) (by simp)
  | leaf _ _ hoff _ =>
      obtain ⟨g, hg, hroot⟩ := h.line.root_mem
      exact iff_of_false (fun hmove => off_line hoff g hg (hroot.trans hmove.symm)) (by simp)

end Underway

end SearchLab.Game.Evaluation
