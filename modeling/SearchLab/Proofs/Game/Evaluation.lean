import SearchLab.Proofs.Edit
import SearchLab.Proofs.Game.Worth

/-!
# An evaluation on its way

The frames on the stack of an evaluation make up a line of play: each is behind the move that the frame below it has
come to. What a frame holds is right as far as its moves have been gone through. In a tree without cycles no move of
the line leads back into it, so each verdict is right when it is given.

* `Frame.Sound` — what a frame says of the moves that have been gone through;
* `Line` — the frames of the present line;
* `Sound` — an evaluation on its way;
* `seek_spec` — the next verdict is right, and after the last one the worth of the root is known.
-/

namespace SearchLab.Game

open SearchLab.Game.Tree (Retains)

variable {π υ : Type} [Position π υ]

namespace Evaluation

variable [Score υ] {t t' : Tree π υ} {root : Nat}

/-! ## Frames -/

/-- A frame knows the outcomes of the moves that it has gone through. -/
structure Frame.Sound (t : Tree π υ) (f : Frame υ) (e : Entry π υ) (outcomes : List (Move × υ)) : Prop where
  entry : t.entry? f.slot = some e
  isOpen : Position.isTerminal e.position = false
  player : Position.player e.position = some f.player
  moves : e.moves = some (outcomes.map Prod.fst ++ f.moves)
  nonempty : outcomes.map Prod.fst ++ f.moves ≠ []
  worth : ∀ o ∈ outcomes, t.Worth o.1.slot o.2
  unset : f.best = none → outcomes = [] ∧ f.bestMoves = []
  set : ∀ {b}, f.best = some b → IsBest f.player (outcomes.map Prod.snd) b ∧
    f.bestMoves = (outcomes.filter fun o => Score.same b o.2).map Prod.fst

/-- A position whose worth is at hand. -/
theorem right_of_leaf {slot : Nat} {u : υ} (h : approach t slot = .ok (.leaf u)) :
    t.Right ⟨slot, u, []⟩ := by
  unfold approach at h
  cases he : t.entry? slot with
  | none => simp [he] at h
  | some e =>
      simp only [he] at h
      by_cases hended : Position.isTerminal e.position = true
      · rw [if_pos hended] at h
        cases h
        exact .leaf (.ended he hended) he (by simp [Entry.replies, hended])
      · rw [if_neg hended] at h
        have hopen : Position.isTerminal e.position = false := by simpa using hended
        have hmoves : e.moves.getD [] = [] ∧ u = (Position.heuristic e.position).getD Score.zero := by
          split at h
          · split at h <;> cases h
          · rename_i hnone
            cases h
            refine ⟨?_, rfl⟩
            cases hmoves : e.moves with
            | none => rfl
            | some moves =>
                cases moves with
                | nil => rfl
                | cons move moves => exact absurd hmoves (hnone move moves)
        rw [hmoves.2]
        exact .leaf (.estimated he hopen hmoves.1) he (by simp [Entry.replies, hopen, hmoves.1])

/-- A position whose moves have to be gone through. -/
theorem sound_of_inner {slot : Nat} {player : Player} {moves : List Move}
    (h : approach t slot = .ok (.inner player moves)) :
    ∃ e, Frame.Sound t { slot, player, moves } e [] := by
  unfold approach at h
  cases he : t.entry? slot with
  | none => simp [he] at h
  | some e =>
      simp only [he] at h
      split at h
      · cases h
      · rename_i hopen
        split at h
        · rename_i move rest hmoves
          split at h
          · rename_i player' hplayer
            cases h
            exact ⟨e, he, by simpa using hopen, hplayer, hmoves, by simp, by simp, fun _ => ⟨rfl, rfl⟩, by simp⟩
          · cases h
        · cases h

namespace Frame.Sound

variable {f : Frame υ} {e : Entry π υ} {outcomes : List (Move × υ)}

theorem retained (h : f.Sound t e outcomes) (hretains : Retains t t') : ∃ e', f.Sound t' e' outcomes := by
  obtain ⟨e', he', hposition, hmoves⟩ := hretains.entry h.entry
  exact ⟨e', he', hposition ▸ h.isOpen, hposition ▸ h.player, hmoves.trans h.moves, h.nonempty,
    fun o ho => (h.worth o ho).retained hretains, h.unset, h.set⟩

/-- The move that a frame has come to is a reply. -/
theorem reply (h : f.Sound t e outcomes) {move : Move} {rest : List Move} (hmoves : f.moves = move :: rest) :
    t.Reply f.slot move.slot := by
  refine ⟨e, h.entry, move, ?_, rfl⟩
  simp [Entry.replies, h.isOpen, h.moves, hmoves]

variable {α : Type} [LinearOrder α] {rank : υ → α} {C : Set υ}

/-- The best so far is never given up for nothing. -/
theorem best_absorb (hrank : Score.RankedBy rank C) (h : f.Sound t e outcomes) (hC : ∀ w ∈ outcomes.map Prod.snd, w ∈ C)
    {u : υ} (hu : u ∈ C) (move : Move) (rest : List Move) :
    ∃ b, (f.absorb u move rest).best = some b ∧ IsBest f.player ((outcomes ++ [(move, u)]).map Prod.snd) b ∧
      (f.absorb u move rest).bestMoves = ((outcomes ++ [(move, u)]).filter fun o => Score.same b o.2).map Prod.fst := by
  simp only [List.map_append, List.filter_append]
  cases hset : f.best with
  | none =>
      obtain ⟨rfl, _⟩ := h.unset hset
      refine ⟨u, by simp [Frame.absorb, hset], .single hrank f.player hu, ?_⟩
      simp [Frame.absorb, hset, hrank.same_refl hu]
  | some b =>
      obtain ⟨hb, hlist⟩ := h.set hset
      by_cases hprefers : prefers f.player u b = true
      · obtain ⟨hnew, hothers⟩ := hb.better hrank hC hu hprefers
        have hnone : (outcomes.filter fun o => Score.same u o.2) = [] := by
          rw [List.filter_eq_nil_iff]
          intro o ho
          simp [hothers o.2 (List.mem_map_of_mem ho)]
        refine ⟨u, by simp [Frame.absorb, hset, hprefers], hnew, ?_⟩
        simp [Frame.absorb, hset, hprefers, hnone, hrank.same_refl hu]
      · have hkept := hb.keep (by simpa using hprefers)
        by_cases hsame : Score.same b u = true
        · refine ⟨b, by simp [Frame.absorb, hset, hprefers, hsame], hkept, ?_⟩
          simp [Frame.absorb, hset, hprefers, hsame, hlist]
        · refine ⟨b, by simp [Frame.absorb, hset, hprefers, hsame], hkept, ?_⟩
          simp [Frame.absorb, hset, hprefers, hsame, hlist]

/-- Taking note of what a move is worth. -/
theorem absorb (hrank : Score.RankedBy rank C) (hshows : t.Shows C) (h : f.Sound t e outcomes) {move : Move}
    {rest : List Move} (hmoves : f.moves = move :: rest) {u : υ} (hu : t.Worth move.slot u) :
    (f.absorb u move rest).Sound t e (outcomes ++ [(move, u)]) := by
  have hC : ∀ w ∈ outcomes.map Prod.snd, w ∈ C := by
    intro w hw
    obtain ⟨o, ho, rfl⟩ := List.mem_map.mp hw
    exact (h.worth o ho).mem hshows
  obtain ⟨b, hb, hisBest, hlist⟩ := h.best_absorb hrank hC (hu.mem hshows) move rest
  have hsplit : (outcomes ++ [(move, u)]).map Prod.fst ++ rest = outcomes.map Prod.fst ++ f.moves := by
    rw [hmoves, List.map_append, List.append_assoc]
    rfl
  constructor
  · rw [Frame.slot_absorb]
    exact h.entry
  · exact h.isOpen
  · rw [Frame.player_absorb]
    exact h.player
  · rw [Frame.moves_absorb, hsplit]
    exact h.moves
  · rw [Frame.moves_absorb, hsplit]
    exact h.nonempty
  · intro o ho
    rcases List.mem_append.mp ho with ho | ho
    · exact h.worth o ho
    · rw [List.mem_singleton.mp ho]
      exact hu
  · intro hunset
    rw [hb] at hunset
    cases hunset
  · intro b' hb'
    obtain rfl := Option.some.inj (hb.symm.trans hb')
    rw [Frame.player_absorb]
    exact ⟨hisBest, hlist⟩

/-- The verdict of a frame that has gone through all its moves. -/
theorem right (h : f.Sound t e outcomes) (hmoves : f.moves = []) : t.Right f.verdict := by
  have hreplies : e.moves = some (outcomes.map Prod.fst) := by rw [h.moves, hmoves, List.append_nil]
  cases hset : f.best with
  | none =>
      obtain ⟨rfl, _⟩ := h.unset hset
      exact absurd hmoves (by simpa using h.nonempty)
  | some b =>
      obtain ⟨hbest, hlist⟩ := h.set hset
      have hverdict : f.verdict = ⟨f.slot, b, f.bestMoves⟩ := by rw [Frame.verdict, hset, Option.getD_some]
      rw [hverdict]
      refine ⟨.chosen outcomes h.entry h.isOpen h.player hreplies h.worth hbest, e, outcomes, h.entry, ?_, h.worth, hlist⟩
      simp [Entry.replies, h.isOpen, hreplies]

end Frame.Sound

/-! ## The present line -/

/-- The frames of a line of play from a root, the deepest one first. -/
inductive Line (t : Tree π υ) (root : Nat) : List (Frame υ) → Prop
  | start {f : Frame υ} {e : Entry π υ} {outcomes : List (Move × υ)} (hsound : f.Sound t e outcomes) (hroot : f.slot = root) :
      Line t root [f]
  | reply {f g : Frame υ} {below : List (Frame υ)} {e : Entry π υ} {outcomes : List (Move × υ)} {move : Move}
      {rest : List Move} (hline : Line t root (g :: below)) (hsound : f.Sound t e outcomes) (hmoves : g.moves = move :: rest)
      (hslot : move.slot = f.slot) : Line t root (f :: g :: below)

namespace Line

variable {f : Frame υ} {below : List (Frame υ)}

theorem top (h : Line t root (f :: below)) : ∃ e outcomes, f.Sound t e outcomes := by
  cases h with
  | start hsound _ | reply _ hsound _ _ => exact ⟨_, _, hsound⟩

theorem retained {stack : List (Frame υ)} (h : Line t root stack) (hretains : Retains t t') : Line t' root stack := by
  induction h with
  | start hsound hroot =>
      obtain ⟨e', hsound'⟩ := hsound.retained hretains
      exact .start hsound' hroot
  | reply _ hsound hmoves hslot ih =>
      obtain ⟨e', hsound'⟩ := hsound.retained hretains
      exact .reply ih hsound' hmoves hslot

/-- The frame on top can be changed for another one of the same position. -/
theorem replace {f' : Frame υ} {e : Entry π υ} {outcomes : List (Move × υ)} (h : Line t root (f :: below))
    (hsound : f'.Sound t e outcomes) (hslot : f'.slot = f.slot) : Line t root (f' :: below) := by
  cases h with
  | start _ hroot => exact .start hsound (hslot.trans hroot)
  | reply hline _ hmoves hslot' => exact .reply hline hsound hmoves (hslot'.trans hslot.symm)

/-- Each position of the line leads to the one on top. -/
theorem leads {g : Frame υ} (h : Line t root (f :: below)) (hg : g ∈ f :: below) :
    Relation.ReflTransGen t.Reply g.slot f.slot := by
  generalize hstack : f :: below = stack at h hg
  induction h generalizing f below with
  | start _ _ =>
      cases hstack
      rw [List.mem_singleton.mp hg]
  | @reply f' g' below' e outcomes move rest hline _ hmoves hslot ih =>
      cases hstack
      rcases List.mem_cons.mp hg with rfl | hg
      · exact .refl
      · obtain ⟨_, _, hsound⟩ := hline.top
        exact (ih rfl hg).tail (hslot ▸ hsound.reply hmoves)

end Line

/-! ## Evaluations -/

/-- An evaluation from a root, on its way through a tree: it has not begun, it is on a line, or it is done. -/
inductive Sound (t : Tree π υ) (root : Nat) : Evaluation υ → Prop
  | fresh : Sound t root ⟨some root, []⟩
  | onLine {stack : List (Frame υ)} (hline : Line t root stack) : Sound t root ⟨none, stack⟩
  | finished (hroot : (t.utility? root).isSome = true) : Sound t root ⟨none, []⟩

/-- A verdict about a position of the tree is found there. -/
theorem isSome_utility?_settle {v : Verdict υ} (hv : t.Right v) : ((t.settle v).utility? v.slot).isSome = true := by
  obtain ⟨e, _, he, _⟩ := hv.best
  simp [Tree.utility?, Tree.entry?_settle, he]

namespace Sound

variable {s : Evaluation υ}

/-- An evaluation that still has to begin has nothing on its stack. -/
theorem root_eq (h : Sound t root s) {r : Nat} (hr : s.root = some r) : r = root ∧ s.stack = [] := by
  cases h with
  | fresh => exact ⟨(Option.some.inj hr).symm, rfl⟩
  | onLine _ | finished _ => cases hr

theorem line (h : Sound t root s) (hr : s.root = none) {f : Frame υ} {below : List (Frame υ)}
    (hs : s.stack = f :: below) : Line t root (f :: below) := by
  cases h with
  | fresh => cases hr
  | onLine hline => exact hs ▸ hline
  | finished _ => cases hs

/-- An evaluation goes on as before in a tree with the same moves, where what is known of the root is not forgotten. -/
theorem retained (h : Sound t root s) (hretains : Retains t t')
    (hroot : (t.utility? root).isSome = true → (t'.utility? root).isSome = true) : Sound t' root s := by
  cases h with
  | fresh => exact .fresh
  | onLine hline => exact .onLine (hline.retained hretains)
  | finished hdone => exact .finished (hroot hdone)

theorem settle (h : Sound t root s) (v : Verdict υ) : Sound (t.settle v) root s := by
  refine h.retained (Tree.sameMoves_settle t v).there ?_
  intro hdone
  obtain ⟨u, hu⟩ := Option.isSome_iff_exists.mp hdone
  obtain ⟨e, he, heu⟩ := Option.bind_eq_some_iff.mp hu
  rw [Tree.utility?, Tree.entry?_settle, he]
  by_cases hslot : v.slot = root <;> simp [hslot, heu]

end Sound

/-- What an evaluation comes to. -/
def Comes (t : Tree π υ) (root : Nat) : Except Error (Option (Verdict υ)) × Evaluation υ → Prop
  | (.error _, s) => Sound t root s
  | (.ok none, s) => Sound t root s ∧ (t.utility? root).isSome = true
  | (.ok (some v), s) => t.Right v ∧ Sound (t.settle v) root s

section

variable {α : Type} [LinearOrder α] {rank : υ → α} {C : Set υ}

/-- **The next verdict is right**, and the evaluation is still on its way behind it; when none is left, the worth of the
root is known. -/
theorem seek_spec (hrank : Score.RankedBy rank C) (hshows : t.Shows C) (hacyclic : t.Acyclic) (hjudged : t.Judged)
    {s : Evaluation υ} (h : Sound t root s) : Comes t root (seek t s) := by
  -- One case for each turn that `seek` can take.
  fun_induction seek t s with
  | case1 s r hr err happroach => exact h
  | case2 s r hr u happroach =>
      obtain ⟨rfl, hstack⟩ := h.root_eq hr
      have hright := right_of_leaf happroach
      rw [hstack]
      exact ⟨hright, .finished (isSome_utility?_settle hright)⟩
  | case3 s r hr player moves happroach ih =>
      obtain ⟨rfl, hstack⟩ := h.root_eq hr
      obtain ⟨e, hsound⟩ := sound_of_inner happroach
      rw [hstack] at ih ⊢
      exact ih (.onLine (.start hsound rfl))
  | case4 s hr hs =>
      refine ⟨h, ?_⟩
      cases h with
      | fresh => cases hr
      | onLine hline =>
          subst hs
          cases hline
      | finished hroot => exact hroot
  | case5 s hr f below hs hm =>
      have hline := h.line hr hs
      obtain ⟨e, outcomes, hsound⟩ := hline.top
      have hright := hsound.right hm
      rw [hr]
      refine ⟨hright, ?_⟩
      cases hline with
      | start _ hslot => exact .finished (hslot ▸ isSome_utility?_settle hright)
      | reply hbelow _ _ _ => exact .onLine (hbelow.retained (Tree.sameMoves_settle t _).there)
  | case6 s hr f below hs move moves hm u hu ih =>
      have hline := h.line hr hs
      obtain ⟨e, outcomes, hsound⟩ := hline.top
      rw [hr] at ih ⊢
      obtain ⟨e', he', hu'⟩ := Option.bind_eq_some_iff.mp hu
      have hworth : t.Worth move.slot u := (hjudged he' hu').worth
      exact ih (.onLine (hline.replace (hsound.absorb hrank hshows hm hworth) (Frame.slot_absorb f u move moves)))
  | case7 s hr f below hs move moves hm hu hline ih =>
      -- The move would lead back to a position of the line.
      obtain ⟨g, hg, hslot⟩ := List.any_eq_true.mp hline
      have hline := h.line hr hs
      obtain ⟨e, outcomes, hsound⟩ := hline.top
      have hleads := hline.leads (hs ▸ hg)
      have hslot : g.slot = move.slot := by simpa using hslot
      exact absurd (Relation.TransGen.tail' (hslot ▸ hleads) (hsound.reply hm)) (hacyclic move.slot)
  | case8 s hr f below hs move moves hm hu hoff err happroach => exact h
  | case9 s hr f below hs move moves hm hu hoff u happroach =>
      have hright := right_of_leaf happroach
      exact ⟨hright, h.settle _⟩
  | case10 s hr f below hs move rest hm hu hoff player moves happroach ih =>
      have hline := h.line hr hs
      obtain ⟨e, hsound⟩ := sound_of_inner happroach
      rw [hr, hs] at ih ⊢
      exact ih (.onLine (.reply hline hsound hm rfl))

end

end Evaluation

end SearchLab.Game
