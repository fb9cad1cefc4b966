import Mathlib.Algebra.GroupWithZero.Nat
import Mathlib.Algebra.Order.BigOperators.Group.List
import Mathlib.Algebra.Order.Group.Nat
import SearchLab.Game.Deepening
import SearchLab.Proofs.Game.Tree

/-!
# How many expansions a pass makes

A pass of a deepening search goes through the lines of play down to a limit, and meets a node once on each line that
leads to it. `tally` counts what it meets: nodes that are expanded, nodes that are not, or both. A tree that grows keeps
the moves that it has, so a tally is known in advance of all trees to come as far as the nodes are expanded.

* `tally_of_kept` — a node that is expanded counts itself and what its moves lead to;
* `Settled.step` — when a limit shows no more than the one before it, nothing is left behind it;
* `visits_le_of_rank` — with a rank that every move lowers, limits above it show no more.
-/

namespace SearchLab.Game

variable {π υ : Type}

/-- Where the moves of an expanded node lead to. -/
def Tree.children? (t : Tree π υ) (slot : Nat) : Option (List Nat) :=
  ((t.entry? slot).bind Entry.moves).map fun moves => moves.map Move.slot

namespace Deepening

variable [Position π υ]

theorem isInner_iff {t : Tree π υ} {slot : Nat} :
    isInner t slot = true ↔ ∃ e, t.entry? slot = some e ∧ Position.isTerminal e.position = false := by
  rw [isInner, Tree.position?]
  cases t.entry? slot with
  | none => simp
  | some e => simp

/-- What is met on the lines of play from a node, down to some depth: so much for each node that is expanded, and so much
for each that is not. -/
def tally (seen unseen : Nat) (t : Tree π υ) : Nat → Nat → Nat
  | 0, _ => 0
  | depth + 1, slot =>
    if isInner t slot then
      match t.children? slot with
      | some children => seen + (children.map (tally seen unseen t depth)).sum
      | none => unseen
    else 0

variable {t : Tree π υ} {seen unseen depth slot : Nat}

/-- A node that is expanded counts itself and what its moves lead to. -/
theorem tally_of_kept (hinner : isInner t slot = true) {children : List Nat} (hkept : t.children? slot = some children) :
    tally seen unseen t (depth + 1) slot = seen + (children.map (tally seen unseen t depth)).sum := by
  rw [tally, if_pos hinner, hkept]

theorem tally_of_unseen (hinner : isInner t slot = true) (hnone : t.children? slot = none) :
    tally seen unseen t (depth + 1) slot = unseen := by
  rw [tally, if_pos hinner, hnone]

/-- Where the game ends nothing is expanded. -/
theorem tally_of_ended (hended : isInner t slot = false) : tally seen unseen t depth slot = 0 := by
  cases depth with
  | zero => rfl
  | succ depth => simp [tally, hended]

/-- Where members do not go down and neither does their sum go up, none has changed. -/
theorem le_of_sum_le {f g : Nat → Nat} (h : ∀ c, f c ≤ g c) {children : List Nat}
    (hsum : (children.map g).sum ≤ (children.map f).sum) : ∀ c ∈ children, g c ≤ f c := by
  induction children with
  | nil => simp
  | cons c rest ih =>
      have hc := h c
      have hrest : (rest.map f).sum ≤ (rest.map g).sum := List.sum_le_sum fun c _ => h c
      simp only [List.map_cons, List.sum_cons] at hsum
      intro c' hc'
      rcases List.mem_cons.mp hc' with rfl | hc'
      · omega
      · exact ih (by omega) c' hc'

/-- One limit shows no more than another if that is so at each child, one level deeper. -/
theorem visits_le_of_children {shallow deep : Nat}
    (h : ∀ children, isInner t slot = true → t.children? slot = some children →
      ∀ c ∈ children, tally 1 0 t shallow c ≤ tally 1 0 t deep c) :
    tally 1 0 t (shallow + 1) slot ≤ tally 1 0 t (deep + 1) slot := by
  cases hinner : isInner t slot with
  | false => simp [tally_of_ended hinner]
  | true =>
      cases hkept : t.children? slot with
      | none => simp [tally_of_unseen hinner hkept]
      | some children =>
          rw [tally_of_kept hinner hkept, tally_of_kept hinner hkept]
          exact Nat.add_le_add_left (List.sum_le_sum (h children hinner hkept)) 1

/-- A deeper limit shows no less. -/
theorem visits_mono (t : Tree π υ) (depth slot : Nat) : tally 1 0 t depth slot ≤ tally 1 0 t (depth + 1) slot := by
  induction depth generalizing slot with
  | zero => exact Nat.zero_le _
  | succ depth ih => exact visits_le_of_children fun _ _ _ c _ => ih c

/-- Down to a limit all is expanded, and the limit shows no more than the one before it. -/
structure Settled (t : Tree π υ) (depth slot : Nat) : Prop where
  expanded : tally 0 1 t (depth + 1) slot = 0
  few : tally 1 0 t (depth + 1) slot ≤ tally 1 0 t depth slot

/-- **Nothing is left behind a limit that shows no more than the one before it**: a node at which the game goes on is
expanded, and the same is true one level deeper. -/
theorem Settled.step (h : Settled t depth slot) (hinner : isInner t slot = true) :
    ∃ children, t.children? slot = some children ∧ ∃ d, ∀ c ∈ children, Settled t d c := by
  cases hkept : t.children? slot with
  | none =>
      have hone := h.expanded
      rw [tally_of_unseen hinner hkept] at hone
      omega
  | some children =>
      have hzero := h.expanded
      have hfew := h.few
      rw [tally_of_kept hinner hkept] at hzero hfew
      cases depth with
      | zero =>
          simp only [tally] at hfew
          omega
      | succ d =>
          rw [tally_of_kept hinner hkept] at hfew
          have hsame := le_of_sum_le (visits_mono t d) (Nat.le_of_add_le_add_left hfew)
          have hnone : ∀ c ∈ children, tally 0 1 t (d + 1) c = 0 := by
            intro c hc
            exact List.sum_eq_zero_iff_forall_eq_nat.mp (by simpa using hzero) _ (List.mem_map_of_mem hc)
          exact ⟨children, rfl, d, fun c hc => ⟨hnone c hc, hsame c hc⟩⟩

/-- Where every move leads to a lower rank, limits above the rank of a node show no more. -/
theorem visits_le_of_rank {P : Nat → Prop} {rank : Nat → Nat}
    (hlower : ∀ {a children}, P a → isInner t a = true → t.children? a = some children →
      ∀ c ∈ children, P c ∧ rank c < rank a) (hslot : P slot) (hrank : rank slot < depth) :
    tally 1 0 t (depth + 1) slot ≤ tally 1 0 t depth slot := by
  induction depth generalizing slot with
  | zero => omega
  | succ depth ih =>
      refine visits_le_of_children fun children hinner hkept c hc => ?_
      obtain ⟨hc', hlow⟩ := hlower hslot hinner hkept c hc
      exact ih hc' (by omega)

end Deepening

end SearchLab.Game
