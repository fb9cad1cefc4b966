import SearchLab.Proofs.Game.Frames
import SearchLab.Proofs.Game.Score

/-!
# What verdicts tell of the moves

A frame takes note of a move as the best when it is the first, or when the player prefers what it came to. As to be lower
is a strict order, whatever the numbers are, the first of the best moves came to what the position is worth, and no move
before it has come to the same. Moves to one position have come to the same, so no move before it leads where it leads.

* `FirstBest`, `gather_firstBest` — the first best move of a frame that has gone through some moves;
* `Told`, `Turn.told` — where a verdict comes from;
* `Told.first`, `Told.leads` — the first of its best moves, among the moves of the position and at a clear position.
-/

namespace SearchLab.Game.Evaluation

variable {υ : Type} [Score υ] {look look' : Nat → Except Error (Approach υ)} {notes : Nat → Option υ}

/-! ## The first best move -/

theorem prefers_irrefl (hstrict : Score.Strict υ) (player : Player) (u : υ) : prefers player u u = false := by
  cases player <;> exact hstrict.irrefl u

theorem prefers_trans (hstrict : Score.Strict υ) {player : Player} {u v w : υ} (huv : prefers player u v = true)
    (hvw : prefers player v w = true) : prefers player u w = true := by
  cases player with
  | max => exact hstrict.trans hvw huv
  | min => exact hstrict.trans huv hvw

/-- A move came to an outcome that no other is preferred to, and no move before it came to the same. -/
structure FirstBest (player : Player) (outcomes : List (Move × υ)) (m : Move) (u : υ) : Prop where
  split : ∃ before after, outcomes = before ++ (m, u) :: after ∧ ∀ o ∈ before, o.2 ≠ u
  unbeaten : ∀ o ∈ outcomes, prefers player o.2 u = false

namespace FirstBest

variable {player : Player} {outcomes : List (Move × υ)} {m : Move} {u : υ}

theorem single (hstrict : Score.Strict υ) (player : Player) (m : Move) (u : υ) : FirstBest player [(m, u)] m u where
  split := ⟨[], [], rfl, by simp⟩
  unbeaten o ho := by
    rw [List.mem_singleton.mp ho]
    exact prefers_irrefl hstrict player u

/-- What is preferred to the best becomes the best, and no move before came to that. -/
theorem better (hstrict : Score.Strict υ) (h : FirstBest player outcomes m u) {m' : Move} {u' : υ}
    (hprefers : prefers player u' u = true) : FirstBest player (outcomes ++ [(m', u')]) m' u' where
  split := by
    refine ⟨outcomes, [], rfl, fun o ho hsame => ?_⟩
    rw [← hsame, h.unbeaten o ho] at hprefers
    cases hprefers
  unbeaten o ho := by
    rcases List.mem_append.mp ho with ho | ho
    · rw [Bool.eq_false_iff]
      intro hbeats
      have hbest := h.unbeaten o ho
      rw [prefers_trans hstrict hbeats hprefers] at hbest
      cases hbest
    · rw [List.mem_singleton.mp ho]
      exact prefers_irrefl hstrict player u'

/-- What is not preferred to the best leaves it the best. -/
theorem keep (h : FirstBest player outcomes m u) {o : Move × υ} (hprefers : prefers player o.2 u = false) :
    FirstBest player (outcomes ++ [o]) m u where
  split := by
    obtain ⟨before, after, rfl, hbefore⟩ := h.split
    exact ⟨before, after ++ [o], by simp, hbefore⟩
  unbeaten o' ho' := by
    rcases List.mem_append.mp ho' with ho' | ho'
    · exact h.unbeaten o' ho'
    · rw [List.mem_singleton.mp ho']
      exact hprefers

end FirstBest

/-- Whatever a frame has gone through, it is about the same position. -/
theorem Frame.slot_gather (f : Frame υ) (outcomes : List (Move × υ)) :
    (f.gather outcomes).slot = f.slot ∧ (f.gather outcomes).player = f.player := by
  induction outcomes using List.reverseRecOn with
  | nil => exact ⟨rfl, rfl⟩
  | append_singleton outcomes o ih =>
      rw [gather_append, slot_absorb, player_absorb]
      exact ih

/-- **The first best move** of a frame is noted first, with what it came to. -/
theorem gather_firstBest (hstrict : Score.Strict υ) {f : Frame υ} (hbest : f.best = none) (hnone : f.bestMoves = [])
    (outcomes : List (Move × υ)) :
    outcomes = [] ∧ (f.gather outcomes).best = none ∧ (f.gather outcomes).bestMoves = [] ∨
      ∃ m u, FirstBest f.player outcomes m u ∧ (f.gather outcomes).best = some u ∧
        (f.gather outcomes).bestMoves.head? = some m := by
  induction outcomes using List.reverseRecOn with
  | nil => exact .inl ⟨rfl, hbest, hnone⟩
  | append_singleton outcomes o ih =>
      right
      rw [Frame.gather_append]
      rcases ih with ⟨rfl, hbest, _⟩ | ⟨m, u, hfirst, hbest, hhead⟩
      · exact ⟨o.1, o.2, .single hstrict _ _ _, by simp [Frame.absorb, hbest], by simp [Frame.absorb, hbest]⟩
      · rw [← (f.slot_gather outcomes).2] at hfirst ⊢
        cases hprefers : prefers (f.gather outcomes).player o.2 u with
        | true => exact ⟨o.1, o.2, hfirst.better hstrict hprefers, by simp [Frame.absorb, hbest, hprefers]⟩
        | false =>
            refine ⟨m, u, hfirst.keep hprefers, ?_⟩
            by_cases hsame : Score.same u o.2 = true
            · simp [Frame.absorb, hbest, hprefers, hsame, List.head?_append, hhead]
            · simp [Frame.absorb, hbest, hprefers, hsame, hhead]

/-! ## Where verdicts come from -/

/-- Where a verdict comes from: the worth of the position was at hand, or its moves were gone through. Moves to one
position have come to the same then, and at a clear position all have come to values. -/
inductive Told (look : Nat → Except Error (Approach υ)) : Verdict υ → Prop
  | leaf {slot : Nat} {u : υ} (happroach : look slot = .ok (.leaf u)) : Told look ⟨slot, u, []⟩
  | inner {slot : Nat} {player : Player} (outcomes : List (Move × υ))
      (happroach : look slot = .ok (.inner player (outcomes.map Prod.fst)))
      (hunique : ∀ o ∈ outcomes, ∀ o' ∈ outcomes, o.1.slot = o'.1.slot → o.2 = o'.2)
      (hvalues : Clear look slot → ∀ o ∈ outcomes, Value look o.1.slot o.2) :
      Told look (Frame.gather { slot, player, moves := outcomes.map Prod.fst } outcomes).verdict

section

variable {root : Nat} {s s' : Evaluation υ} {v : Verdict υ}

/-- At a clear position, each move that was gone through has come to a value. -/
theorem Accounted.value {f : Frame υ} {below : List (Frame υ)} (hright : Right look notes)
    (hline : Stacked look root (f :: below)) {o : Move × υ} (h : Accounted notes (f :: below) o)
    (honward : Onward look f.slot o.1.slot) (hclear : Clear look f.slot) : Value look o.1.slot o.2 := by
  rcases h with hnoted | ⟨_, hback, _⟩
  · exact hright _ _ hnoted (hclear.reaches (.single honward))
  · exact absurd hback (hline.off_of_clear hclear honward)

/-- **All verdicts of an evaluation** come from where they should. -/
theorem Turn.told (hunderway : Underway look root (s, notes)) (haccounts : Accounts look notes s.stack)
    (hturn : Turn look notes s (some v) s') : Told look v := by
  cases hturn with
  | leafRoot happroach | leaf _ _ _ happroach => exact .leaf happroach
  | @close f below hmoves =>
      cases haccounts with
      | cons hf _ =>
          obtain ⟨outcomes, ⟨happroach, hgather⟩, hall⟩ := hf
          rw [hmoves, List.append_nil] at happroach hgather
          have honward : ∀ o ∈ outcomes, Onward look f.slot o.1.slot := fun o ho =>
            ⟨_, _, happroach, o.1, List.mem_map_of_mem ho, rfl⟩
          rw [congrArg Frame.verdict hgather]
          exact .inner outcomes happroach (fun o ho o' ho' => (hall o ho).unique (hall o' ho')) fun hclear o ho =>
            (hall o ho).value hunderway.right hunderway.line (honward o ho) hclear

/-- **Behind a verdict on a clear position**, all that it leads to is known. -/
theorem Turn.known_behind (hunderway : Underway look root (s, notes)) (haccounts : Accounts look notes s.stack)
    (hturn : Turn look notes s (some v) s') (hclear : Clear look v.slot) {slot : Nat} (honward : Onward look v.slot slot) :
    (notes slot).isSome = true := by
  cases hturn with
  | leafRoot happroach | leaf _ _ _ happroach =>
      obtain ⟨player, moves, hinner, _⟩ := honward
      cases happroach.symm.trans hinner
  | @close f below hmoves =>
      rcases haccounts.noted_or_onLine hmoves honward with hnoted | hline
      · exact hnoted
      · exact absurd hline (hunderway.line.off_of_clear hclear honward)

end

namespace Told

variable {v : Verdict υ}

/-- A verdict goes on to be told where more positions can be approached. -/
theorem mono (hmore : ∀ slot a, look slot = .ok a → look' slot = .ok a) (h : Told look v) : Told look' v := by
  cases h with
  | leaf happroach => exact .leaf (hmore _ _ happroach)
  | inner outcomes happroach hunique hvalues =>
      exact .inner outcomes (hmore _ _ happroach) hunique fun hclear o ho => (hvalues (hclear.anti hmore) o ho).mono hmore

/-- Either the worth of the position was at hand, or it has moves to be gone through. -/
theorem leaf_or_inner (h : Told look v) :
    look v.slot = .ok (.leaf v.utility) ∨ ∃ player moves, look v.slot = .ok (.inner player moves) := by
  cases h with
  | leaf happroach => exact .inl happroach
  | @inner _ player outcomes happroach _ _ =>
      refine .inr ⟨player, outcomes.map Prod.fst, ?_⟩
      rw [Frame.verdict, (Frame.slot_gather _ outcomes).1]
      exact happroach

/-- **The first of the best moves** is the first of the position's moves that leads where it leads. -/
theorem first (hstrict : Score.Strict υ) (h : Told look v) {m : Move} (hm : v.bestMoves.head? = some m) :
    ∃ player moves, look v.slot = .ok (.inner player moves) ∧ moves.find? (·.slot == m.slot) = some m := by
  cases h with
  | leaf _ => cases hm
  | @inner slot player outcomes happroach hunique _ =>
      rcases gather_firstBest hstrict (f := { slot, player, moves := outcomes.map Prod.fst }) rfl rfl outcomes with
        ⟨_, _, hnone⟩ | ⟨m', u, hfirst, _, hhead⟩
      · rw [Frame.verdict, hnone] at hm
        cases hm
      · obtain rfl : m' = m := Option.some.inj (hhead.symm.trans hm)
        refine ⟨player, outcomes.map Prod.fst, ?_, ?_⟩
        · rw [Frame.verdict, (Frame.slot_gather _ outcomes).1]
          exact happroach
        · obtain ⟨before, after, rfl, hbefore⟩ := hfirst.split
          have hnone : (before.map Prod.fst).find? (·.slot == m'.slot) = none := by
            rw [List.find?_eq_none]
            rintro _ hmem hslot
            obtain ⟨o, ho, rfl⟩ := List.mem_map.mp hmem
            exact hbefore o ho (hunique o (by simp [ho]) (m', u) (by simp) (by simpa using hslot))
          rw [List.map_append, List.find?_append, hnone, Option.none_or]
          simp

/-- **At a clear position**, the first of the best moves leads to a position of the same value. -/
theorem leads (hstrict : Score.Strict υ) (h : Told look v) (hclear : Clear look v.slot) {player : Player}
    {moves : List Move} (hinner : look v.slot = .ok (.inner player moves)) (hsome : moves ≠ []) :
    ∃ m ∈ moves, v.bestMoves.head? = some m ∧ Value look m.slot v.utility := by
  cases h with
  | leaf happroach => cases happroach.symm.trans hinner
  | @inner slot player' outcomes happroach _ hvalues =>
      have hslot := (Frame.slot_gather (υ := υ) { slot, player := player', moves := outcomes.map Prod.fst } outcomes).1
      rw [Frame.verdict, hslot] at hclear hinner
      injection Except.ok.inj (happroach.symm.trans hinner) with _ hmoves
      subst hmoves
      rcases gather_firstBest hstrict (f := { slot, player := player', moves := outcomes.map Prod.fst }) rfl rfl outcomes with
        ⟨rfl, _⟩ | ⟨m, u, hfirst, hbest, hhead⟩
      · exact absurd rfl hsome
      · obtain ⟨before, after, hsplit, _⟩ := hfirst.split
        have hmem : (m, u) ∈ outcomes := by simp [hsplit]
        refine ⟨m, List.mem_map_of_mem hmem, hhead, ?_⟩
        rw [Frame.verdict, hbest, Option.getD_some]
        exact hvalues hclear _ hmem

end Told

end SearchLab.Game.Evaluation
