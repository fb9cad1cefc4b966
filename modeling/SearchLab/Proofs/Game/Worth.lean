import SearchLab.Proofs.Game.Play
import SearchLab.Proofs.Game.Score

/-!
# What positions are worth

`Worth` says what a position of a tree is worth, without regard to how it was found: its score where the game ends, its
estimate at the frontier, and else the best that its moves lead to. It hangs on the positions and on the moves that are
kept, and on nothing else that a tree holds.

* `Worth.same` — a position is worth one thing only, up to outcomes that are worth the same;
* `Right` — a verdict that is right;
* `Right.bestMoves_eq` — the best moves are the moves whose positions are worth the same.
-/

namespace SearchLab.Game

variable {π υ : Type}

namespace Tree

/-! ## Worth -/

section

variable [Position π υ] [Score υ]

/-- What the position in a slot is worth. -/
inductive Worth (t : Tree π υ) : Nat → υ → Prop
  | ended {slot : Nat} {e : Entry π υ} (he : t.entry? slot = some e) (hended : Position.isTerminal e.position = true) :
      Worth t slot (Position.score e.position)
  | estimated {slot : Nat} {e : Entry π υ} (he : t.entry? slot = some e) (hopen : Position.isTerminal e.position = false)
      (hmoves : e.moves.getD [] = []) : Worth t slot ((Position.heuristic e.position).getD Score.zero)
  | chosen {slot : Nat} {e : Entry π υ} {player : Player} {u : υ} (outcomes : List (Move × υ))
      (he : t.entry? slot = some e) (hopen : Position.isTerminal e.position = false)
      (hplayer : Position.player e.position = some player) (hmoves : e.moves = some (outcomes.map Prod.fst))
      (hworth : ∀ o ∈ outcomes, Worth t o.1.slot o.2) (hbest : IsBest player (outcomes.map Prod.snd) u) :
      Worth t slot u

/-- All outcomes that a tree can show are of a sort. -/
structure Shows (C : Set υ) (t : Tree π υ) : Prop where
  zero : (Score.zero : υ) ∈ C
  score : ∀ {slot e}, t.entry? slot = some e → Position.isTerminal e.position = true → Position.score e.position ∈ C
  heuristic : ∀ {slot e u}, t.entry? slot = some e → Position.heuristic e.position = some u → u ∈ C

namespace Worth

variable {t t' : Tree π υ} {slot : Nat} {u v : υ}

/-- A position is worth the same in all trees that have its moves. -/
theorem retained (h : t.Worth slot u) (hretains : Retains t t') : t'.Worth slot u := by
  induction h with
  | ended he hended =>
      obtain ⟨e', he', hposition, _⟩ := hretains.entry he
      rw [← hposition] at hended ⊢
      exact .ended he' hended
  | estimated he hopen hmoves =>
      obtain ⟨e', he', hposition, hsame⟩ := hretains.entry he
      rw [← hposition] at hopen ⊢
      exact .estimated he' hopen (by rw [hsame, hmoves])
  | chosen outcomes he hopen hplayer hmoves _ hbest ih =>
      obtain ⟨e', he', hposition, hsame⟩ := hretains.entry he
      exact .chosen outcomes he' (hposition ▸ hopen) (hposition ▸ hplayer) (hsame.trans hmoves) ih hbest

variable {α : Type} [LinearOrder α] {rank : υ → α} {C : Set υ}

/-- What positions are worth is among the outcomes that the tree can show. -/
theorem mem (h : t.Worth slot u) (hshows : t.Shows C) : u ∈ C := by
  induction h with
  | ended he hended => exact hshows.score he hended
  | @estimated slot e he _ _ =>
      cases hheuristic : Position.heuristic e.position with
      | none => exact hshows.zero
      | some u => exact hshows.heuristic he hheuristic
  | chosen outcomes _ _ _ _ _ hbest ih =>
      obtain ⟨o, ho, rfl⟩ := List.mem_map.mp hbest.mem
      exact ih o ho

/-- **A position is worth one thing only**, up to outcomes that are worth the same. -/
theorem same (hrank : Score.RankedBy rank C) (hshows : t.Shows C) (h : t.Worth slot u) (h' : t.Worth slot v) :
    Score.same u v = true := by
  induction h generalizing v with
  | @ended slot e he hended =>
      cases h' with
      | ended he' _ =>
          obtain rfl := Option.some.inj (he.symm.trans he')
          exact hrank.same_refl (hshows.score he hended)
      | estimated he' hopen _ | chosen _ he' hopen _ _ _ _ =>
          obtain rfl := Option.some.inj (he.symm.trans he')
          simp [hended] at hopen
  | @estimated slot e he hopen hmoves =>
      have hmem := (Worth.estimated he hopen hmoves).mem hshows
      cases h' with
      | ended he' hended =>
          obtain rfl := Option.some.inj (he.symm.trans he')
          simp [hopen] at hended
      | estimated he' _ _ =>
          obtain rfl := Option.some.inj (he.symm.trans he')
          exact hrank.same_refl hmem
      | chosen outcomes he' _ _ hmoves' _ hbest =>
          obtain rfl := Option.some.inj (he.symm.trans he')
          exact absurd (by simpa [hmoves'] using hmoves) hbest.moves_ne_nil
  | @chosen slot e player u outcomes he hopen hplayer hmoves hworth hbest ih =>
      cases h' with
      | ended he' hended =>
          obtain rfl := Option.some.inj (he.symm.trans he')
          simp [hopen] at hended
      | estimated he' _ hmoves' =>
          obtain rfl := Option.some.inj (he.symm.trans he')
          exact absurd (by simpa [hmoves] using hmoves') hbest.moves_ne_nil
      | chosen others he' _ hplayer' hmoves' hworth' hbest' =>
          obtain rfl := Option.some.inj (he.symm.trans he')
          obtain rfl := Option.some.inj (hplayer.symm.trans hplayer')
          have hfst : outcomes.map Prod.fst = others.map Prod.fst := Option.some.inj (hmoves.symm.trans hmoves')
          refine hbest.same_of_moves hrank hbest' hfst (fun o ho => (hworth o ho).mem hshows)
            (fun o ho => (hworth' o ho).mem hshows) fun o ho o' ho' hmove => ih o ho (hmove ▸ hworth' o' ho')

end Worth

/-! ## Verdicts -/

/-- A verdict is right: it says what the position is worth, and which of its moves achieve that. -/
structure Right (t : Tree π υ) (v : Verdict υ) : Prop where
  worth : t.Worth v.slot v.utility
  best : ∃ (e : Entry π υ) (outcomes : List (Move × υ)), t.entry? v.slot = some e ∧
    e.replies = outcomes.map Prod.fst ∧ (∀ o ∈ outcomes, t.Worth o.1.slot o.2) ∧
    v.bestMoves = (outcomes.filter fun o => Score.same v.utility o.2).map Prod.fst

/-- What is written down about the positions of a tree is right. -/
def Judged (t : Tree π υ) : Prop :=
  ∀ {slot e u}, t.entry? slot = some e → e.utility = some u → t.Right ⟨slot, u, e.bestMoves⟩

namespace Right

variable {t t' : Tree π υ} {v : Verdict υ}

theorem retained (h : t.Right v) (hretains : Retains t t') : t'.Right v where
  worth := h.worth.retained hretains
  best := by
    obtain ⟨e, outcomes, he, hreplies, hworth, hbest⟩ := h.best
    obtain ⟨e', he', hposition, hmoves⟩ := hretains.entry he
    have hsame : e'.replies = e.replies := by rw [Entry.replies, Entry.replies, hposition, hmoves]
    exact ⟨e', outcomes, he', hsame.trans hreplies, fun o ho => (hworth o ho).retained hretains, hbest⟩

/-- A position at which nothing has to be chosen has no best moves. -/
theorem leaf {slot : Nat} {u : υ} {e : Entry π υ} (hworth : t.Worth slot u) (he : t.entry? slot = some e)
    (hreplies : e.replies = []) : t.Right ⟨slot, u, []⟩ where
  worth := hworth
  best := ⟨e, [], he, hreplies, by simp, rfl⟩

open Classical in
/-- The best moves are the moves, in their order, whose positions are worth what is achieved. -/
theorem bestMoves_eq {α : Type} [LinearOrder α] {rank : υ → α} {C : Set υ} (hrank : Score.RankedBy rank C)
    (hshows : t.Shows C) (h : t.Right v) {e : Entry π υ} (he : t.entry? v.slot = some e) :
    v.bestMoves = e.replies.filter fun m => ∃ w, t.Worth m.slot w ∧ Score.same v.utility w = true := by
  obtain ⟨e', outcomes, he', hreplies, hworth, hbest⟩ := h.best
  obtain rfl := Option.some.inj (he.symm.trans he')
  have hv : v.utility ∈ C := h.worth.mem hshows
  rw [hbest, hreplies, List.filter_map]
  congr 1
  refine List.filter_congr fun o ho => ?_
  have ho' : o.2 ∈ C := (hworth o ho).mem hshows
  have hiff : (∃ w, t.Worth o.1.slot w ∧ Score.same v.utility w = true) ↔ Score.same v.utility o.2 = true := by
    constructor
    · rintro ⟨w, hw, hsame⟩
      exact hrank.same_trans hv (hw.mem hshows) ho' hsame (hw.same hrank hshows (hworth o ho))
    · intro hsame
      exact ⟨o.2, hworth o ho, hsame⟩
  rw [Function.comp_apply, Bool.eq_iff_iff, decide_eq_true_eq, hiff]

end Right

/-- A right verdict can be written down. -/
theorem Judged.settle {t : Tree π υ} (h : t.Judged) {v : Verdict υ} (hv : t.Right v) : (t.settle v).Judged := by
  intro slot e u he hu
  have hretains := (sameMoves_settle t v).there
  rw [entry?_settle] at he
  by_cases hslot : v.slot = slot
  · rw [if_pos hslot] at he
    obtain ⟨e', he', rfl⟩ := Option.map_eq_some_iff.mp he
    cases hu
    subst hslot
    exact hv.retained hretains
  · rw [if_neg hslot] at he
    exact (h he hu).retained hretains

end

end Tree

end SearchLab.Game
