import SearchLab.Proofs.Game.Records
import SearchLab.Proofs.Graph.Reach

/-!
# The line of best moves

From a position the line goes on with the first of its best moves, as long as that leads to a position that is not on the
line yet. Each of these moves is the first of its position that leads where it leads. In a tree without cycles each
position on the line has the worth of the first one, once that is known, and the line goes on to where no moves have to
be gone through.

* `IsBestLine`, `bestLine_isBestLine`, `nodup_bestLine`, `end_of_bestLine` — how far the line goes;
* `Justified.end_of_known` — where it ends in a tree without cycles.
-/

namespace SearchLab.Game

open Relation (ReflTransGen TransGen)
open SearchLab.Game.Evaluation (approach)

variable {π υ : Type}

namespace Tree

/-- The moves that are kept of a position. -/
def movesOf (t : Tree π υ) (slot : Nat) : List Move := ((t.entry? slot).bind Entry.moves).getD []

/-- The moves of a line, each with the node that it leaves. -/
def hops : Nat → List Move → List (Nat × Move)
  | _, [] => []
  | slot, m :: line => (slot, m) :: hops m.slot line

/-- Each move is the first of the best moves of the position before it, and among the moves that are kept of that. -/
def IsBestLine (t : Tree π υ) (slot : Nat) (line : List Move) : Prop :=
  ∀ hop ∈ hops slot line, t.bestMove? hop.1 = some hop.2 ∧ hop.2 ∈ t.movesOf hop.1

/-- Where a line ends. -/
def endOf : Nat → List Move → Nat
  | slot, [] => slot
  | _, m :: line => endOf m.slot line

theorem isBestLine_cons {t : Tree π υ} {slot : Nat} {m : Move} {line : List Move} :
    t.IsBestLine slot (m :: line) ↔ (t.bestMove? slot = some m ∧ m ∈ t.movesOf slot) ∧ t.IsBestLine m.slot line :=
  List.forall_mem_cons

/-! ## How far the line goes -/

/-- The line hangs on the best moves alone. -/
theorem lineFrom_congr {t t' : Tree π υ} (h : t'.bestMove? = t.bestMove?) (slot : Nat) (left : List Nat) :
    t'.lineFrom slot left = t.lineFrom slot left := by
  fun_induction lineFrom t slot left with
  | case1 slot left hnone =>
      rw [lineFrom, h]
      simp [hnone]
  | case2 slot left m hm hleft ih =>
      rw [lineFrom, h]
      simp [hm, hleft, ih]
  | case3 slot left m hm hleft =>
      rw [lineFrom, h]
      simp [hm, hleft]

/-- Which edges are highlighted makes no difference to the line. -/
theorem bestLine_highlight (t : Tree π υ) (root : Nat) (line : List Move) (slot : Nat) :
    (t.highlight root line).bestLine slot = t.bestLine slot := by
  have hnodes := (Twins.highlight t root line).graph.nodes
  have hmoves : (t.highlight root line).bestMove? = t.bestMove? := rfl
  rw [bestLine, bestLine, Graph.otherSlots, Graph.otherSlots, Graph.nodeList, Graph.nodeList, hnodes]
  exact lineFrom_congr hmoves slot _

theorem lineFrom_isBestLine {t : Tree π υ} (hkept : ∀ slot m, t.bestMove? slot = some m → m ∈ t.movesOf slot) (slot : Nat)
    (left : List Nat) : t.IsBestLine slot (t.lineFrom slot left) := by
  fun_induction lineFrom t slot left with
  | case1 slot left hnone => simp [IsBestLine, hops]
  | case2 slot left m hm _ ih => exact isBestLine_cons.mpr ⟨⟨hm, hkept slot m hm⟩, ih⟩
  | case3 slot left m hm _ => simp [IsBestLine, hops]

/-- No position comes up twice, and none that is not left. -/
theorem nodup_lineFrom (t : Tree π υ) (slot : Nat) {left : List Nat} (h : left.Nodup) :
    ((t.lineFrom slot left).map Move.slot).Nodup ∧ ∀ s ∈ (t.lineFrom slot left).map Move.slot, s ∈ left := by
  fun_induction lineFrom t slot left with
  | case1 slot left hnone => simp
  | case2 slot left m hm hleft ih =>
      obtain ⟨hnodup, hall⟩ := ih (h.erase m.slot)
      refine ⟨List.nodup_cons.mpr ⟨fun hagain => (h.not_mem_erase) (hall _ hagain), hnodup⟩, ?_⟩
      intro s hs
      rcases List.mem_cons.mp hs with rfl | hs
      · exact hleft
      · exact List.mem_of_mem_erase (hall s hs)
  | case3 slot left m hm _ => simp

/-- A line ends where no best move is noted, or where the first of them leads to a position that has come up. -/
theorem end_of_lineFrom (t : Tree π υ) (slot : Nat) (left : List Nat) {m : Move}
    (hm : t.bestMove? (endOf slot (t.lineFrom slot left)) = some m) :
    m.slot ∉ left ∨ m.slot ∈ (t.lineFrom slot left).map Move.slot := by
  fun_induction lineFrom t slot left with
  | case1 slot left hnone => cases hnone.symm.trans hm
  | case2 slot left first hfirst hleft ih =>
      rcases ih hm with hgone | hagain
      · by_cases hsame : m.slot = first.slot
        · exact .inr (by rw [hsame, List.map_cons]; exact List.mem_cons_self)
        · exact .inl fun hmem => hgone ((List.mem_erase_of_ne hsame).mpr hmem)
      · exact .inr (List.mem_cons_of_mem _ hagain)
  | case3 slot left first hfirst hleft =>
      obtain rfl := Option.some.inj (hfirst.symm.trans hm)
      exact .inl hleft

variable [Position π υ]

/-- **No position occurs twice** on the line of best moves. -/
theorem nodup_bestLine {t : Tree π υ} (h : t.InStep) (slot : Nat) : (slot :: (t.bestLine slot).map Move.slot).Nodup := by
  obtain ⟨hnodup, hall⟩ := t.nodup_lineFrom slot (h.arena.nodup_slots.filter (· != slot))
  refine List.nodup_cons.mpr ⟨fun hslot => ?_, hnodup⟩
  exact ((Graph.mem_otherSlots h.arena).mp (hall slot hslot)).2 rfl

variable [Score υ]

namespace Justified

variable {t : Tree π υ} (hstrict : Score.Strict υ) (h : t.Justified)

include hstrict h

/-- **The first of the best moves** of a position is the first of its moves that leads where it leads. -/
theorem bestMove {slot : Nat} {m : Move} (hm : t.bestMove? slot = some m) :
    (t.movesOf slot).find? (·.slot == m.slot) = some m ∧ Evaluation.Onward (approach t) slot m.slot := by
  obtain ⟨e, he, hhead⟩ := Option.bind_eq_some_iff.mp hm
  cases hu : e.utility with
  | none =>
      rw [h.blank he hu] at hhead
      cases hhead
  | some u =>
      obtain ⟨player, moves, hinner, hfirst⟩ := (h.told he hu).first hstrict hhead
      obtain ⟨e', he', hmoves, _⟩ := Evaluation.entry_of_inner hinner
      have hkept : t.movesOf slot = moves := by rw [movesOf, he', Option.bind_some, hmoves, Option.getD_some]
      exact ⟨hkept ▸ hfirst, player, moves, hinner, m, List.mem_of_find?_eq_some hfirst, rfl⟩

theorem bestLine_isBestLine (slot : Nat) : t.IsBestLine slot (t.bestLine slot) :=
  lineFrom_isBestLine (fun _ _ hm => List.mem_of_find?_eq_some (h.bestMove hstrict hm).1) slot _

/-- **The line goes on as far as it can**, where it does not lead back to itself. -/
theorem end_of_bestLine (hstep : t.InStep) {slot : Nat} {m : Move} (hm : t.bestMove? (endOf slot (t.bestLine slot)) = some m) :
    m.slot ∈ slot :: (t.bestLine slot).map Move.slot := by
  rcases t.end_of_lineFrom slot _ hm with hgone | hagain
  · obtain ⟨e, he⟩ := Evaluation.entry_of_onward hstep (h.bestMove hstrict hm).2
    have hother : ¬ m.slot ≠ slot := fun hne => hgone ((Graph.mem_otherSlots hstep.arena).mpr ⟨hstep.live he, hne⟩)
    exact (not_not.mp hother) ▸ List.mem_cons_self
  · exact List.mem_cons_of_mem slot hagain

/-! ## Where the line ends -/

/-- Each position on a line leads to its end. -/
theorem leads_to_end {slot : Nat} {line : List Move} (hline : t.IsBestLine slot line) :
    ∀ s ∈ slot :: line.map Move.slot, ReflTransGen (Evaluation.Onward (approach t)) s (endOf slot line) := by
  induction line generalizing slot with
  | nil =>
      intro s hs
      rw [List.mem_singleton.mp hs]
      exact .refl
  | cons m line ih =>
      obtain ⟨⟨hm, _⟩, hrest⟩ := isBestLine_cons.mp hline
      intro s hs
      rcases List.mem_cons.mp hs with rfl | hs
      · exact (ih hrest m.slot List.mem_cons_self).head (h.bestMove hstrict hm).2
      · exact ih hrest s hs

/-- Where no line leads into a cycle, all positions on a line have the worth of the first one. -/
theorem utility?_end (hclear : ∀ slot, Evaluation.Clear (approach t) slot)
    (hright : Evaluation.Right (approach t) t.utility?) {slot : Nat} {line : List Move} (hline : t.IsBestLine slot line) {u : υ}
    (hu : t.utility? slot = some u) : t.utility? (endOf slot line) = some u := by
  induction line generalizing slot with
  | nil => exact hu
  | cons m line ih =>
      obtain ⟨⟨hm, _⟩, hrest⟩ := isBestLine_cons.mp hline
      refine ih hrest ?_
      obtain ⟨e, he, hutility⟩ := Option.bind_eq_some_iff.mp hu
      obtain ⟨player, moves, hinner, hmove⟩ := (h.bestMove hstrict hm).2
      obtain ⟨m', _, hhead, hvalue⟩ := (h.told he hutility).leads hstrict (hclear slot) hinner
        (by obtain ⟨m, hm, _⟩ := hmove; exact List.ne_nil_of_mem hm)
      have hfirst : e.bestMoves.head? = some m := by simpa [bestMove?, he] using hm
      obtain rfl : m' = m := Option.some.inj (hhead.symm.trans hfirst)
      -- What is known behind the move is its value.
      obtain ⟨w, hw⟩ := Option.isSome_iff_exists.mp
        (h.known (hclear slot) (h.bestMove hstrict hm).2 (by rw [hu, Option.isSome_some]))
      rw [hw, (hright _ _ hw (hclear _)).unique hvalue]

/-- **Where the line ends** when the worth of its first position is known and no line leads into a cycle: at a position
of the same worth, where no moves have to be gone through. -/
theorem end_of_known (hstep : t.InStep) (hclear : ∀ slot, Evaluation.Clear (approach t) slot)
    (hright : Evaluation.Right (approach t) t.utility?) {slot : Nat} {u : υ} (hu : t.utility? slot = some u) :
    t.utility? (endOf slot (t.bestLine slot)) = some u ∧
      approach t (endOf slot (t.bestLine slot)) = .ok (.leaf u) := by
  have hline := h.bestLine_isBestLine hstrict slot
  have hend := h.utility?_end hstrict hclear hright hline hu
  refine ⟨hend, ?_⟩
  have hnone : t.bestMove? (endOf slot (t.bestLine slot)) = none := by
    cases hm : t.bestMove? (endOf slot (t.bestLine slot)) with
    | none => rfl
    | some m =>
        have hback := h.leads_to_end hstrict hline m.slot (h.end_of_bestLine hstrict hstep hm)
        exact absurd (TransGen.head' (h.bestMove hstrict hm).2 hback) (hclear _ _ .refl)
  obtain ⟨e, he, hutility⟩ := Option.bind_eq_some_iff.mp hend
  have hhead : e.bestMoves.head? = none := by simpa [bestMove?, he] using hnone
  rcases (h.told he hutility).leaf_or_inner with hleaf | ⟨player, moves, hinner⟩
  · exact hleaf
  · -- Where moves are gone through there are some, and one of them is the best.
    obtain ⟨_, hsound⟩ := Evaluation.sound_of_inner hinner
    obtain ⟨m, _, hbest, _⟩ := (h.told he hutility).leads hstrict (hclear _) hinner hsound.nonempty
    cases hhead.symm.trans hbest

end Justified

end Tree

end SearchLab.Game
