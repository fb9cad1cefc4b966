import Mathlib.Data.Finset.Card
import Mathlib.Data.Finset.Range
import SearchLab.Proofs.Game.Evaluation
import SearchLab.Proofs.Game.Slice
import SearchLab.Proofs.Game.Turns

/-!
# Evaluations of a tree from their beginning to their end

What `seek` does in a tree is to take turns, and the verdicts that it brings are notes in the tree. Every position on
the line is one of which nothing was known when the line came to it, but for the root. So each verdict but the last
makes known what was not, and an evaluation comes to its end.

* `seek_sought` — what `seek` does is a row of turns;
* `Follows` — an evaluation that has come from its root to where it is;
* `comes_to_end` — it comes to its end.
-/

namespace SearchLab.Game

open Relation (ReflTransGen TransGen)
open SearchLab.Game.Tree (Retains SameMoves)

variable {π υ : Type} [Position π υ]

/-- No line of replies from a position leads into a cycle. -/
def Tree.Clear (t : Tree π υ) (slot : Nat) : Prop :=
  ∀ y, ReflTransGen t.Reply slot y → ¬ TransGen t.Reply y y

variable [Score υ]

namespace Evaluation

section

variable {look : Nat → Except Error (Approach υ)} {notes : Nat → Option υ}

/-! ## Positions of which nothing was known -/

/-- Nothing is noted yet of the positions on the line, except perhaps of the root. -/
def Unsettled (root : Nat) (c : Evaluation υ × (Nat → Option υ)) : Prop :=
  ∀ f ∈ c.1.stack, f.slot = root ∨ c.2 f.slot = none

omit [Position π υ] [Score υ] in
/-- A note on a position that is not on the line is none on the positions of the line. -/
theorem Unsettled.note {root slot : Nat} {stack : List (Frame υ)} (h : ∀ f ∈ stack, f.slot = root ∨ notes f.slot = none)
    (hother : ∀ f ∈ stack, f.slot ≠ slot) (u : Option υ) :
    Unsettled root (⟨none, stack⟩, Function.update notes slot u) :=
  fun f hf => (h f hf).imp_right (Function.update_of_ne (hother f hf) _ _).trans

omit [Position π υ] in
/-- A verdict is given on a position of which nothing was noted, or else it is the last. -/
theorem Unsettled.turn {root : Nat} {s s' : Evaluation υ} {found : Option (Verdict υ)} (hopen : Unsettled root (s, notes))
    (h : Underway look root (s, notes)) (hturn : Turn look notes s found s') :
    Unsettled root (s', noted notes found) ∧ ∀ v, found = some v → notes v.slot = none ∨ s' = ⟨none, []⟩ := by
  cases hturn with
  | leafRoot happroach =>
      cases h with
      | fresh _ => exact ⟨.note (by simp) (by simp) _, fun _ _ => .inr rfl⟩
  | enterRoot happroach =>
      cases h with
      | fresh _ => exact ⟨fun f hf => .inl (by rw [List.mem_singleton.mp hf]), by simp⟩
  | @close f below hmoves =>
      have hbelow : ∀ g ∈ below, g.slot = root ∨ notes g.slot = none := fun g hg => hopen g (List.mem_cons_of_mem f hg)
      cases h.line with
      | start _ _ => exact ⟨.note hbelow (by simp) _, fun _ _ => .inr rfl⟩
      | reply hline _ _ _ hnew =>
          refine ⟨.note hbelow hnew _, ?_⟩
          rintro _ ⟨⟩
          obtain ⟨g, hg, hroot⟩ := hline.root_mem
          rcases hopen f List.mem_cons_self with hf | hf
          · exact absurd (hroot.trans hf.symm) (hnew g hg)
          · exact .inl hf
  | @known f below move rest u _ _ | @back f below move rest _ _ _ =>
      refine ⟨fun g hg => ?_, by simp⟩
      rcases List.mem_cons.mp hg with rfl | hg
      · rw [Frame.slot_absorb]
        exact hopen f List.mem_cons_self
      · exact hopen g (List.mem_cons_of_mem f hg)
  | leaf hmoves hnone hoff happroach => exact ⟨.note hopen (off_line hoff) _, by rintro _ ⟨⟩; exact .inl hnone⟩
  | enter hmoves hnone _ _ =>
      refine ⟨fun g hg => ?_, by simp⟩
      rcases List.mem_cons.mp hg with rfl | hg
      · exact .inr hnone
      · exact hopen g hg

end

variable {t t' : Tree π υ} {root : Nat} {start : Nat → Option υ} {s s' : Evaluation υ}

/-! ## Seeking is taking turns -/

/-- What `seek` has done: some turns that bring no verdict, and one that brings it; or nothing is left to be done; or a
position could not be approached. -/
inductive Sought (t : Tree π υ) (s : Evaluation υ) : Except Error (Option (Verdict υ)) × Evaluation υ → Prop
  | failed {slot : Nat} {err : Error} {s' : Evaluation υ}
      (hgoes : ReflTransGen (Goes (approach t)) (s, t.utility?) (s', t.utility?))
      (hnext : s'.root = some slot ∨ ∃ f below, s'.stack = f :: below ∧ ∃ m ∈ f.moves, m.slot = slot)
      (happroach : approach t slot = .error err) : Sought t s (.error err, s')
  | finished (hgoes : ReflTransGen (Goes (approach t)) (s, t.utility?) (⟨none, []⟩, t.utility?)) :
      Sought t s (.ok none, ⟨none, []⟩)
  | found {v : Verdict υ} {s₁ s' : Evaluation υ} (hgoes : ReflTransGen (Goes (approach t)) (s, t.utility?) (s₁, t.utility?))
      (hturn : Turn (approach t) t.utility? s₁ (some v) s') : Sought t s (.ok (some v), s')

theorem Sought.behind {r : Except Error (Option (Verdict υ)) × Evaluation υ}
    (hturn : Turn (approach t) t.utility? s none s') (h : Sought t s' r) : Sought t s r := by
  have hfirst : Goes (approach t) (s, t.utility?) (s', t.utility?) := .turn hturn
  cases h with
  | failed hgoes hnext happroach => exact .failed (hgoes.head hfirst) hnext happroach
  | finished hgoes => exact .finished (hgoes.head hfirst)
  | found hgoes hturn => exact .found (hgoes.head hfirst) hturn

/-- **What `seek` does is a row of turns.** -/
theorem seek_sought (t : Tree π υ) (s : Evaluation υ) : Sought t s (seek t s) := by
  -- One case for each turn that `seek` can take.
  fun_induction seek t s with
  | case1 s r hr err happroach => exact .failed .refl (.inl hr) happroach
  | case2 s r hr u happroach =>
      obtain ⟨_, stack⟩ := s
      subst hr
      exact .found .refl (.leafRoot happroach)
  | case3 s r hr player moves happroach ih =>
      obtain ⟨_, stack⟩ := s
      subst hr
      exact ih.behind (.enterRoot happroach)
  | case4 s hr hs =>
      obtain ⟨_, _⟩ := s
      subst hr hs
      exact .finished .refl
  | case5 s hr f below hs hm =>
      obtain ⟨_, _⟩ := s
      subst hr hs
      exact .found .refl (.close hm)
  | case6 s hr f below hs move moves hm u hu ih =>
      obtain ⟨_, _⟩ := s
      subst hr hs
      exact ih.behind (.known hm hu)
  | case7 s hr f below hs move moves hm hu hline ih =>
      obtain ⟨_, _⟩ := s
      subst hr hs
      exact ih.behind (.back hm hu hline)
  | case8 s hr f below hs move moves hm hu hoff err happroach =>
      exact .failed .refl (.inr ⟨f, below, hs, move, hm ▸ List.mem_cons_self, rfl⟩) happroach
  | case9 s hr f below hs move moves hm hu hoff u happroach =>
      obtain ⟨_, _⟩ := s
      subst hr hs
      exact .found .refl (.leaf hm hu (by simpa using hoff) happroach)
  | case10 s hr f below hs move rest hm hu hoff player moves happroach ih =>
      obtain ⟨_, _⟩ := s
      subst hr hs
      exact ih.behind (.enter hm hu (by simpa using hoff) happroach)

/-! ## Approaching the positions of a tree -/

theorem approach_of_retains (h : Retains t t') (slot : Nat) (a : Approach υ) (ha : approach t slot = .ok a) :
    approach t' slot = .ok a := by
  cases he : t.entry? slot with
  | none => simp [approach, he] at ha
  | some e =>
      obtain ⟨e', he', hposition, hmoves⟩ := h.entry he
      simpa [approach, he, he', hposition, hmoves] using ha

theorem approach_of_sameMoves (h : SameMoves t t') : approach t' = approach t := by
  funext slot
  cases he : t.entry? slot with
  | some e =>
      obtain ⟨e', he', hposition, hmoves⟩ := h.there.entry he
      simp [approach, he, he', hposition, hmoves]
  | none =>
      cases he' : t'.entry? slot with
      | none => simp [approach, he, he']
      | some e' =>
          obtain ⟨e, hsome, _⟩ := h.back.entry he'
          cases he.symm.trans hsome

theorem entry_of_approach {slot : Nat} {a : Approach υ} (ha : approach t slot = .ok a) : ∃ e, t.entry? slot = some e := by
  cases he : t.entry? slot with
  | none => simp [approach, he] at ha
  | some e => exact ⟨e, rfl⟩

/-- A position whose moves have to be gone through. -/
theorem entry_of_inner {slot : Nat} {player : Player} {moves : List Move}
    (ha : approach t slot = .ok (.inner player moves)) :
    ∃ e, t.entry? slot = some e ∧ e.moves = some moves ∧ e.replies = moves := by
  obtain ⟨e, hsound⟩ := sound_of_inner ha
  exact ⟨e, hsound.entry, hsound.moves, by simp [Entry.replies, hsound.isOpen, hsound.moves]⟩

/-- A position can be approached, if there is a player where it has moves to be gone through. -/
theorem exists_approach {slot : Nat} {e : Entry π υ} (he : t.entry? slot = some e)
    (hplayer : Position.isTerminal e.position = false → e.moves.getD [] ≠ [] →
      (Position.player e.position).isSome = true) : ∃ a, approach t slot = .ok a := by
  unfold approach
  rw [he]
  dsimp only
  cases hended : Position.isTerminal e.position with
  | true => exact ⟨_, rfl⟩
  | false =>
      cases hmoves : e.moves with
      | none => exact ⟨_, rfl⟩
      | some moves =>
          cases moves with
          | nil => exact ⟨_, rfl⟩
          | cons move moves =>
              obtain ⟨player, hp⟩ := Option.isSome_iff_exists.mp (hplayer hended (by simp [hmoves]))
              rw [hp]
              exact ⟨_, rfl⟩

theorem reply_of_onward {a b : Nat} (h : Onward (approach t) a b) : t.Reply a b := by
  obtain ⟨player, moves, ha, m, hm, hslot⟩ := h
  obtain ⟨e, he, _, hreplies⟩ := entry_of_inner ha
  exact ⟨e, he, m, hreplies.symm ▸ hm, hslot⟩

theorem clear_of_tree {slot : Nat} (h : t.Clear slot) : Clear (approach t) slot := by
  have hreply : ∀ a b, Onward (approach t) a b → t.Reply a b := fun _ _ => reply_of_onward
  exact fun y hy hcycle => h y (ReflTransGen.mono hreply slot y hy) (TransGen.mono hreply y y hcycle)

theorem entry_of_onward (h : t.InStep) {a b : Nat} (hab : Onward (approach t) a b) : ∃ e, t.entry? b = some e := by
  obtain ⟨player, moves, ha, m, hm, rfl⟩ := hab
  obtain ⟨e, he, hmoves, _⟩ := entry_of_inner ha
  obtain ⟨e', he', _⟩ := (h.lookup _ _).mp (h.targets he hmoves m hm)
  exact ⟨e', he'⟩

theorem entry_of_reached (h : t.InStep) (hlive : ∃ e, t.entry? root = some e) {slot : Nat}
    (hreached : ReflTransGen (Onward (approach t)) root slot) : ∃ e, t.entry? slot = some e := by
  cases hreached with
  | refl => exact hlive
  | tail _ honward => exact entry_of_onward h honward

omit [Position π υ] [Score υ] in
theorem utility?_settle (t : Tree π υ) {v : Verdict υ} (h : ∃ e, t.entry? v.slot = some e) :
    (t.settle v).utility? = noted t.utility? (some v) := by
  obtain ⟨e, he⟩ := h
  funext slot
  by_cases hslot : slot = v.slot
  · subst hslot
    simp [Tree.utility?, Tree.entry?_settle, noted, he]
  · rw [noted, Function.update_of_ne hslot, Tree.utility?, Tree.entry?_settle, if_neg (Ne.symm hslot), Tree.utility?]

omit [Position π υ] [Score υ] in
theorem utility?_resetUtilities (t : Tree π υ) : t.resetUtilities.utility? = fun _ => none := by
  funext slot
  rw [Tree.utility?, Tree.entry?_resetUtilities]
  cases t.entry? slot <;> rfl

omit [Position π υ] [Score υ] in
/-- Positions that join a tree bring no worth. -/
theorem utility?_joins {P : π → Prop} (h : Tree.Joins P t t') : t'.utility? = t.utility? := by
  funext slot
  unfold Tree.utility?
  cases hold : t.entry? slot with
  | some e => rw [h.kept hold]
  | none =>
      cases hnew : t'.entry? slot with
      | none => rfl
      | some e =>
          obtain ⟨q, _, rfl⟩ := h.joined hold hnew
          rfl

omit [Score υ] in
/-- Where a position is opened, nothing is told of what positions are worth. -/
theorem utility?_opens {slot : Nat} {branches : List (Action × π)} {moves : List Move}
    (h : Tree.Opens slot branches moves t t') : t'.utility? = t.utility? := by
  funext other
  unfold Tree.utility?
  cases hold : t.entry? other with
  | none =>
      cases hnew : t'.entry? other with
      | none => rfl
      | some e =>
          obtain ⟨b, _, rfl⟩ := h.joined hold hnew
          rfl
  | some e =>
      by_cases hother : other = slot
      · subst hother
        rw [h.own hold]
        rfl
      · rw [h.others hother hold]

/-! ## Evaluations that have begun at a root -/

/-- An evaluation has come from a root to where it is, in some turns; to begin with something was known that was right
at the clear positions. -/
structure Follows (root : Nat) (start : Nat → Option υ) (t : Tree π υ) (s : Evaluation υ) : Prop where
  right : Right (approach t) start
  goes : ReflTransGen (Goes (approach t)) (ofRoot root, start) (s, t.utility?)

namespace Follows

theorem ofRoot (h : Right (approach t) t.utility?) : Follows root t.utility? t (ofRoot root) := ⟨h, .refl⟩

theorem underway (h : Follows root start t s) : Underway (approach t) root (s, t.utility?) :=
  (Underway.fresh h.right).goes h.goes

theorem unsettled (h : Follows root start t s) : Unsettled root (s, t.utility?) := by
  have hbegin : Unsettled root (Evaluation.ofRoot root, start) := fun f hf => absurd hf List.not_mem_nil
  have hkeeps : ∀ c, ReflTransGen (Goes (approach t)) (Evaluation.ofRoot root, start) c → Unsettled root c := by
    intro c hgoes
    induction hgoes with
    | refl => exact hbegin
    | tail hbefore hturn ih =>
        have hmiddle := (Underway.fresh h.right).goes hbefore
        obtain ⟨hturn⟩ := hturn
        exact (ih.turn hmiddle hturn).1
  exact hkeeps _ h.goes

/-- An evaluation goes on as before in a tree that retains the positions, where the same is known. -/
theorem retained (h : Follows root start t s) (hretains : Retains t t') (hnotes : t'.utility? = t.utility?) :
    Follows root start t' s := by
  have hmore := approach_of_retains hretains
  refine ⟨h.right.mono hmore, ?_⟩
  rw [hnotes]
  exact ReflTransGen.mono (fun _ _ => Goes.mono hmore) _ _ h.goes

theorem failed {err : Error} (h : Follows root start t s) (hseek : seek t s = (.error err, s')) :
    Follows root start t s' := by
  have hsought := seek_sought t s
  rw [hseek] at hsought
  cases hsought with
  | failed hgoes _ _ => exact ⟨h.right, h.goes.trans hgoes⟩

/-- Nothing but a position that cannot be approached makes an evaluation fail. -/
theorem unapproached {err : Error} (h : Follows root start t s) (hseek : seek t s = (.error err, s')) :
    ∃ slot, ReflTransGen (Onward (approach t)) root slot ∧ approach t slot = .error err := by
  have hunderway := (h.failed hseek).underway
  have hsought := seek_sought t s
  rw [hseek] at hsought
  cases hsought with
  | @failed slot _ _ _ hnext happroach =>
      refine ⟨slot, ?_, happroach⟩
      obtain ⟨next, stack⟩ := s'
      rcases hnext with hroot | ⟨f, below, hstack, m, hm, rfl⟩
      · cases hunderway with
        | fresh _ => exact Option.some.inj hroot ▸ .refl
        | onLine _ _ | finished _ _ => cases hroot
      · subst hstack
        cases hunderway with
        | onLine _ hline =>
            exact (hline.reached List.mem_cons_self).tail ((hline.gathers List.mem_cons_self).onward hm)

theorem finished (h : Follows root start t s) (hseek : seek t s = (.ok none, s')) :
    s' = ⟨none, []⟩ ∧ Follows root start t s' := by
  have hsought := seek_sought t s
  rw [hseek] at hsought
  cases hsought with
  | finished hgoes => exact ⟨rfl, h.right, h.goes.trans hgoes⟩

/-- A verdict is given on a position of the tree of which nothing was known, or else it is the last. -/
theorem found {v : Verdict υ} (h : Follows root start t s) (hseek : seek t s = (.ok (some v), s')) :
    Follows root start (t.settle v) s' ∧ (∃ e, t.entry? v.slot = some e) ∧
      (t.utility? v.slot = none ∨ s' = ⟨none, []⟩) := by
  have hsought := seek_sought t s
  rw [hseek] at hsought
  cases hsought with
  | @found _ s₁ _ hgoes hturn =>
      have hbefore : Follows root start t s₁ := ⟨h.right, h.goes.trans hgoes⟩
      obtain ⟨a, ha⟩ := hbefore.underway.approached hturn
      have hlive := entry_of_approach ha
      have hsame := approach_of_sameMoves (Tree.sameMoves_settle t v)
      refine ⟨⟨hsame ▸ h.right, ?_⟩, hlive, (hbefore.unsettled.turn hbefore.underway hturn).2 v rfl⟩
      rw [hsame, utility?_settle t hlive]
      exact hbefore.goes.tail (.turn hturn)

end Follows

/-! ## The end of an evaluation -/

omit [Position π υ] [Score υ] in
/-- The positions of a tree of which nothing is known. -/
def unknown (t : Tree π υ) : Finset Nat := {slot ∈ Finset.range t.size | (t.utility? slot).isNone}

omit [Position π υ] [Score υ] in
/-- A verdict on a position of which nothing was known leaves one less. -/
theorem card_unknown_settle {v : Verdict υ} (hlive : ∃ e, t.entry? v.slot = some e) (hnone : t.utility? v.slot = none) :
    (unknown (t.settle v)).card < (unknown t).card := by
  have hsize : (t.settle v).size = t.size := Tree.size_modifyEntry _ _ _
  obtain ⟨e, he⟩ := hlive
  refine Finset.card_lt_card (Finset.ssubset_iff_of_subset ?_ |>.mpr ⟨v.slot, ?_, ?_⟩)
  · intro slot hslot
    rw [unknown, Finset.mem_filter, hsize, utility?_settle t ⟨e, he⟩] at hslot
    rw [unknown, Finset.mem_filter]
    refine ⟨hslot.1, ?_⟩
    by_cases hsame : slot = v.slot
    · rw [hsame, hnone]
      rfl
    · have hunknown := hslot.2
      rwa [noted, Function.update_of_ne hsame] at hunknown
  · rw [unknown, Finset.mem_filter, Finset.mem_range, hnone]
    exact ⟨Tree.lt_size he, rfl⟩
  · rw [unknown, Finset.mem_filter, utility?_settle t ⟨e, he⟩]
    simp [noted]

theorem step_of_end (e : Engine π υ) : step (⟨none, []⟩, e) = .ok none (⟨none, []⟩, e) := by
  have hseek : seek e.tree (⟨none, []⟩ : Evaluation υ) = (.ok none, ⟨none, []⟩) := by rw [seek]
  simp only [step, hseek]

/-- **An evaluation comes to its end**, whatever was known to begin with, if the positions that the root leads to can be
approached. -/
theorem comes_to_end {e : Engine π υ} (h : Follows root start e.tree s)
    (hanswers : ∀ slot, ReflTransGen (Onward (approach e.tree)) root slot → ∃ a, approach e.tree slot = .ok a) :
    ∃ results last e', Slice.Pulls (fun _ => false) step (s, e) results last ∧
      step last = .ok none (⟨none, []⟩, e') ∧ approach e'.tree = approach e.tree ∧
      Follows root start e'.tree ⟨none, []⟩ := by
  -- By induction on the number of positions of which nothing is known.
  induction hcard : (unknown e.tree).card using Nat.strong_induction_on generalizing e s with
  | _ n ih =>
    cases hseek : seek e.tree s with
    | mk found s' =>
        cases found with
        | error err =>
            obtain ⟨slot, hreached, herror⟩ := h.unapproached hseek
            obtain ⟨a, ha⟩ := hanswers slot hreached
            cases herror.symm.trans ha
        | ok found =>
            cases found with
            | none =>
                obtain ⟨rfl, hend⟩ := h.finished hseek
                exact ⟨[], (s, e), e, .start _, by simp only [step, hseek], rfl, hend⟩
            | some v =>
                obtain ⟨hnext, hlive, hnew⟩ := h.found hseek
                have hstep : step (s, e) = .ok (some v) (s', { e with tree := e.tree.settle v }) := by
                  simp only [step, hseek]
                have hsame := approach_of_sameMoves (Tree.sameMoves_settle e.tree v)
                rcases hnew with hnone | rfl
                · have hfewer := card_unknown_settle hlive hnone
                  have hanswers' : ∀ slot, ReflTransGen (Onward (approach (e.tree.settle v))) root slot →
                      ∃ a, approach (e.tree.settle v) slot = .ok a := by
                    rw [hsame]
                    exact hanswers
                  obtain ⟨results, last, e', hpulls, hdone, happroach, hend⟩ := ih _ (hcard ▸ hfewer)
                    (e := { e with tree := e.tree.settle v }) hnext hanswers' rfl
                  exact ⟨v :: results, last, e', .more rfl hstep hpulls, hdone, happroach.trans hsame, hend⟩
                · exact ⟨[v], (⟨none, []⟩, { e with tree := e.tree.settle v }), _, .more rfl hstep (.start _), step_of_end _,
                    hsame, hnext⟩

end Evaluation

end SearchLab.Game
