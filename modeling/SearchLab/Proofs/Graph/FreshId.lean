import Mathlib.Order.Bounds.Defs
import SearchLab.Proofs.Graph.Distances

/-!
# Fresh ids

A new node is named by a number: one after the other is tried from the count of nodes on, until one is no node's id. `Tries`
is this search, of which it is not plain that it ends. It does, as different numbers are different ids and there are no more
ids than nodes, so one of any `nodeCount + 1` numbers in a row is free.

* `Tries.isLeast` — what the search finds is the first number that is free;
* `exists_free`, `tries_freshFrom` — there is one, and it is found;
* `freshId_is_first_free` — the id for a new node.
-/

namespace SearchLab.Graph

variable {g : Graph}

/-! ## The search for a free number -/

/-- A number is the id of a node. -/
def isTaken (g : Graph) (number : Nat) : Bool := g.slots.contains (toString number)

/-- From a candidate on, numbers are tried until one is free: how many were tried, and the last of them. -/
inductive Tries (g : Graph) : (candidate tried found : Nat) → Prop
  | free {candidate : Nat} (hfree : g.isTaken candidate = false) : Tries g candidate 1 candidate
  | taken {candidate tried found : Nat} (htaken : g.isTaken candidate = true) (rest : Tries g (candidate + 1) tried found) :
      Tries g candidate (tried + 1) found

/-- Whatever the search finds is the first number that is free, and all numbers up to it were tried. -/
theorem Tries.isLeast {candidate tried found : Nat} (h : Tries g candidate tried found) :
    IsLeast {m | candidate ≤ m ∧ g.isTaken m = false} found ∧ found + 1 = candidate + tried := by
  induction h with
  | free hfree => exact ⟨⟨⟨Nat.le_refl _, hfree⟩, fun m hm => hm.1⟩, rfl⟩
  | @taken candidate tried found htaken rest ih =>
      obtain ⟨⟨⟨hle, hfree⟩, hleast⟩, hcount⟩ := ih
      refine ⟨⟨⟨by omega, hfree⟩, ?_⟩, by omega⟩
      rintro m ⟨hm, hfree'⟩
      -- The candidate is taken, so the free number lies behind it.
      have hne : candidate ≠ m := by
        rintro rfl
        rw [htaken] at hfree'
        cases hfree'
      exact hleast ⟨by omega, hfree'⟩

theorem freshFrom_succ (g : Graph) (candidate tries : Nat) :
    g.freshFrom candidate (tries + 1) = if g.isTaken candidate then g.freshFrom (candidate + 1) tries else candidate :=
  rfl

/-- Where one of the next numbers is free, the search ends there at the latest. -/
theorem tries_freshFrom {candidate tries : Nat} (h : ∃ i ≤ tries, g.isTaken (candidate + i) = false) :
    ∃ tried ≤ tries + 1, Tries g candidate tried (g.freshFrom candidate tries) := by
  obtain ⟨i, hi, hfree⟩ := h
  induction tries generalizing candidate i with
  | zero =>
      obtain rfl : i = 0 := by omega
      exact ⟨1, Nat.le_refl 1, .free hfree⟩
  | succ tries ih =>
      rw [freshFrom_succ]
      cases htaken : g.isTaken candidate with
      | false => exact ⟨1, by omega, .free htaken⟩
      | true =>
          cases i with
          | zero => cases htaken.symm.trans hfree
          | succ j =>
              have hbehind : g.isTaken (candidate + 1 + j) = false := by
                rw [Nat.add_assoc, Nat.add_comm 1 j]
                exact hfree
              obtain ⟨tried, hfew, htries⟩ := ih j (Nat.le_of_succ_le_succ hi) hbehind
              exact ⟨tried + 1, by omega, .taken htaken htries⟩

/-! ## There is a free number -/

/-- Different numbers are different ids. -/
theorem toString_injective {m n : Nat} (h : toString m = toString n) : m = n := by
  have hchars := congrArg String.toList h
  rw [Nat.toString_eq_repr, Nat.toString_eq_repr, Nat.toList_repr, Nat.toList_repr] at hchars
  exact toDigits_injective hchars

/-- Of numbers in a row, one more than there are nodes, one is free. -/
theorem exists_free (g : Graph) (start : Nat) : ∃ i ≤ g.nodeCount, g.isTaken (start + i) = false := by
  by_contra hnone
  have hall : ∀ i ≤ g.nodeCount, g.isTaken (start + i) = true := by
    intro i hi
    by_contra hfree
    exact hnone ⟨i, hi, Bool.eq_false_iff.mpr hfree⟩
  have hnodup : ((List.range (g.nodeCount + 1)).map fun i => toString (start + i)).Nodup :=
    List.nodup_range.map fun i j hij => Nat.add_left_cancel (toString_injective hij)
  have hkeys : ((List.range (g.nodeCount + 1)).map fun i => toString (start + i)) ⊆ g.slots.keys := by
    intro id hid
    obtain ⟨i, hi, rfl⟩ := List.mem_map.mp hid
    exact Std.HashMap.mem_keys.mpr (hall i (Nat.lt_succ_iff.mp (List.mem_range.mp hi)))
  have hlength := (hnodup.subperm hkeys).length_le
  rw [List.length_map, List.length_range, Std.HashMap.length_keys] at hlength
  exact absurd hlength (Nat.not_succ_le_self _)

/-! ## The id for a new node -/

/-- A number is free when it is the id of none of the nodes. -/
theorem isTaken_eq_false_iff (hg : g.Arena) {number : Nat} :
    g.isTaken number = false ↔ ∀ n ∈ g.nodeList, n.id ≠ toString number := by
  have hslot : g.isTaken number = (g.slot? (toString number)).isSome := by simp [isTaken, slot?]
  rw [hslot, Option.isSome_eq_false_iff, Option.isNone_iff_eq_none]
  constructor
  · intro hnew n hn
    obtain ⟨s, hs⟩ := mem_nodeList.mp hn
    exact hg.ne_id hnew hs
  · intro hall
    by_contra hsome
    obtain ⟨s, hs⟩ := Option.ne_none_iff_exists'.mp hsome
    obtain ⟨n, hn, hid⟩ := (hg.lookup _ _).mp hs
    exact hall n (mem_nodeList.mpr ⟨s, hn⟩) hid

/-- **The id for a new node** of a graph that operations lead to, whatever ids its nodes have. The search for it ends after
no more tries than there are nodes and one more. The id is the decimal form of the least number that is not below the count of
nodes and that is no node's id, so a free-form graph takes a node with it. -/
theorem freshId_is_first_free (h : g.Reachable) :
    ∃ tried n, Tries g g.nodeCount tried n ∧ tried ≤ g.nodeCount + 1 ∧ g.freshId = toString n ∧
      g.nodeCount = g.nodeList.length ∧
      IsLeast {m | g.nodeList.length ≤ m ∧ ∀ node ∈ g.nodeList, node.id ≠ toString m} n ∧
      (g.isGrid = false → ∀ data, addNode g.freshId data g = .ok g.nodes.size (g.withNode g.freshId 0 0 data)) := by
  have hg := h.arena_indexed.1
  obtain ⟨tried, hfew, htries⟩ := tries_freshFrom (exists_free g g.nodeCount)
  obtain ⟨hleast, -⟩ := htries.isLeast
  refine ⟨tried, _, htries, hfew, rfl, nodeCount_eq hg, ?_, fun hfree data => ?_⟩
  · rw [← nodeCount_eq hg]
    simpa only [isTaken_eq_false_iff hg] using hleast
  · have hnew : g.slots.contains g.freshId = false := hleast.1.2
    rw [contains_slots, Option.isSome_eq_false_iff, Option.isNone_iff_eq_none] at hnew
    exact addNode_ok_iff.mpr ⟨hfree, hnew, rfl, rfl⟩

/-- Three nodes that are left of four; the first number that is not below their count and the one behind it are taken. -/
def gapped : Graph :=
  ((((empty.withNode "2" 0 0 []).withNode "x" 0 0 []).withNode "3" 0 0 []).withNode "4" 0 0 []).dropNode 1

theorem reachable_gapped : gapped.Reachable := by
  have hfirst := (Reachable.fresh .freeForm).withNode "2" [] rfl (by simp [slot?, empty])
  have hsecond := hfirst.withNode "x" [] rfl (by rw [slot?_withNode]; simp [slot?, empty])
  have hthird := hsecond.withNode "3" [] rfl (by rw [slot?_withNode, slot?_withNode]; simp [slot?, empty])
  have hfourth := hthird.withNode "4" [] rfl
    (by rw [slot?_withNode, slot?_withNode, slot?_withNode]; simp [slot?, empty])
  exact hfourth.run (.removeNode 1)

theorem freshId_is_first_free_gapped :
    gapped.Reachable ∧ gapped.isGrid = false ∧ gapped.freshId = "5" ∧
      ∀ data, addNode "5" data gapped = .ok 4 (gapped.withNode "5" 0 0 data) := by
  obtain ⟨tried, n, -, -, hid, -, ⟨⟨hcount, hfree⟩, hleast⟩, hadd⟩ := freshId_is_first_free reachable_gapped
  have hnodes : gapped.nodeList = [⟨0, "2", 0, 0, [], []⟩, ⟨2, "3", 0, 0, [], []⟩, ⟨3, "4", 0, 0, [], []⟩] := rfl
  have hfive : n ≤ 5 := hleast ⟨by rw [hnodes]; decide, by rw [hnodes]; decide⟩
  rw [hnodes] at hcount hfree
  obtain rfl : n = 5 := by
    have hthree : n ≠ 3 := fun h => hfree ⟨2, "3", 0, 0, [], []⟩ (.tail _ (.head _)) (h ▸ rfl)
    have hfour : n ≠ 4 := fun h => hfree ⟨3, "4", 0, 0, [], []⟩ (.tail _ (.tail _ (.head _))) (h ▸ rfl)
    have hlength : 3 ≤ n := hcount
    omega
  have hfound : gapped.freshId = "5" := hid
  rw [hfound] at hadd
  exact ⟨reachable_gapped, rfl, hfound, hadd rfl⟩

end SearchLab.Graph
