import Mathlib.Data.List.Perm.Basic
import Mathlib.Logic.Relation
import SearchLab.Graph.Reach
import SearchLab.Proofs.Graph.Index

/-!
# What a breadth-first walk comes to

A walk only ever goes on to nodes that it has not seen, so it lists each node once. It lists those that wait, and all
that can be reached from there over nodes that were unseen at the start: what a step finds and what was found before
makes no difference to it.

* `mem_reach`, `nodup_reach` — the nodes of a walk;
* `mem_ancestors`, `nodup_ancestors` — the nodes from which a node can be reached.
-/

namespace SearchLab

open Relation (ReflTransGen)

/-! ## One step -/

/-- A step moves nodes from the unseen ones to the ones that wait, and loses none. -/
theorem fresh_perm (found unseen : List Nat) : ((fresh found unseen).1 ++ (fresh found unseen).2).Perm unseen := by
  induction found generalizing unseen with
  | nil => exact .refl _
  | cons slot found ih =>
      unfold fresh
      split
      · rename_i hslot
        exact ((ih _).cons slot).trans (List.perm_cons_erase hslot).symm
      · exact ih unseen

/-- A step finds those of the nodes one step behind that were unseen. -/
theorem mem_fresh {found unseen : List Nat} {slot : Nat} :
    slot ∈ (fresh found unseen).1 ↔ slot ∈ found ∧ slot ∈ unseen := by
  induction found generalizing unseen with
  | nil => simp [fresh]
  | cons first found ih =>
      unfold fresh
      by_cases hfirst : first ∈ unseen
      · rw [if_pos hfirst]
        by_cases hslot : slot = first
        · simp [hslot, hfirst]
        · simp [ih, hslot, List.mem_erase_of_ne]
      · rw [if_neg hfirst, ih, List.mem_cons]
        constructor
        · exact fun h => ⟨.inr h.1, h.2⟩
        · rintro ⟨rfl | hfound, hunseen⟩
          · exact absurd hunseen hfirst
          · exact ⟨hfound, hunseen⟩

/-- What was unseen is found or stays unseen. -/
theorem mem_fresh_or (found : List Nat) {unseen : List Nat} {slot : Nat} (h : slot ∈ unseen) :
    slot ∈ (fresh found unseen).1 ∨ slot ∈ (fresh found unseen).2 :=
  List.mem_append.mp ((fresh_perm found unseen).mem_iff.mpr h)

theorem mem_of_mem_fresh_snd {found unseen : List Nat} {slot : Nat} (h : slot ∈ (fresh found unseen).2) :
    slot ∈ unseen :=
  (fresh_perm found unseen).mem_iff.mp (List.mem_append_right _ h)

/-! ## The whole walk -/

/-- The nodes that wait are among those that a walk comes to. -/
theorem mem_reach_of_waiting (next : Nat → List Nat) {waiting unseen : List Nat} {slot : Nat} (h : slot ∈ waiting) :
    slot ∈ reach next waiting unseen := by
  induction waiting, unseen using reach.induct next with
  | case1 => simp at h
  | case2 unseen first waiting found ih =>
      rw [reach]
      rcases List.mem_cons.mp h with rfl | h
      · exact List.mem_cons_self
      · exact List.mem_cons_of_mem first (ih (List.mem_append_left _ h))

/-- A walk goes on from every node that it comes to. -/
theorem reach_closed (next : Nat → List Nat) (waiting unseen : List Nat) {a b : Nat}
    (ha : a ∈ reach next waiting unseen) (hb : b ∈ next a) (hunseen : b ∈ unseen) : b ∈ reach next waiting unseen := by
  induction waiting, unseen using reach.induct next with
  | case1 => simp [reach] at ha
  | case2 unseen slot waiting found ih =>
      rw [reach] at ha ⊢
      have hfound : b ∈ found.1 → b ∈ slot :: reach next (waiting ++ found.1) found.2 := fun hb =>
        List.mem_cons_of_mem slot (mem_reach_of_waiting next (List.mem_append_right waiting hb))
      rcases mem_fresh_or (next slot) hunseen with hnew | hleft
      · exact hfound hnew
      · rcases List.mem_cons.mp ha with rfl | ha
        · exact hfound (mem_fresh.mpr ⟨hb, hunseen⟩)
        · exact List.mem_cons_of_mem slot (ih ha hleft)

/-- **The nodes that a walk comes to** are those that can be reached from the ones that wait, over unseen nodes. -/
theorem mem_reach (next : Nat → List Nat) {waiting unseen : List Nat} {slot : Nat} :
    slot ∈ reach next waiting unseen ↔
      ∃ start ∈ waiting, ReflTransGen (fun a b => b ∈ next a ∧ b ∈ unseen) start slot := by
  constructor
  · intro hslot
    induction waiting, unseen using reach.induct next with
    | case1 => simp [reach] at hslot
    | case2 unseen first waiting found ih =>
        rw [reach] at hslot
        rcases List.mem_cons.mp hslot with rfl | hslot
        · exact ⟨slot, List.mem_cons_self, .refl⟩
        · obtain ⟨start, hstart, hpath⟩ := ih hslot
          have hpath : ReflTransGen (fun a b => b ∈ next a ∧ b ∈ unseen) start slot :=
            ReflTransGen.mono (fun _ _ h => ⟨h.1, mem_of_mem_fresh_snd h.2⟩) _ _ hpath
          rcases List.mem_append.mp hstart with hstart | hstart
          · exact ⟨start, List.mem_cons_of_mem first hstart, hpath⟩
          · exact ⟨first, List.mem_cons_self, .head (mem_fresh.mp hstart) hpath⟩
  · rintro ⟨start, hstart, hpath⟩
    induction hpath with
    | refl => exact mem_reach_of_waiting next hstart
    | tail _ hstep ih => exact reach_closed next waiting unseen ih hstep.1 hstep.2

/-- A walk comes to each node once. -/
theorem nodup_reach (next : Nat → List Nat) {waiting unseen : List Nat} (h : (waiting ++ unseen).Nodup) :
    (reach next waiting unseen).Nodup := by
  induction waiting, unseen using reach.induct next with
  | case1 => simp [reach]
  | case2 unseen slot waiting found ih =>
      have hperm : (waiting ++ found.1 ++ found.2).Perm (waiting ++ unseen) := by
        rw [List.append_assoc]
        exact (fresh_perm (next slot) unseen).append_left waiting
      obtain ⟨hslot, hrest⟩ := List.nodup_cons.mp h
      rw [reach, List.nodup_cons]
      refine ⟨fun hagain => hslot (hperm.mem_iff.mp ?_), ih (hperm.nodup_iff.mpr hrest)⟩
      obtain ⟨start, hstart, hpath⟩ := (mem_reach next).mp hagain
      rcases ReflTransGen.cases_tail hpath with rfl | ⟨_, _, hstep⟩
      · exact List.mem_append_left _ hstart
      · exact List.mem_append_right _ hstep.2

/-- A walk ends: it takes no more turns than there are nodes that wait or are unseen at the start. -/
theorem length_reach_le (next : Nat → List Nat) (waiting unseen : List Nat) :
    (reach next waiting unseen).length ≤ waiting.length + unseen.length := by
  induction waiting, unseen using reach.induct next with
  | case1 => simp [reach]
  | case2 unseen slot waiting found ih =>
      have hfound : found.1.length + found.2.length = unseen.length := fresh_length (next slot) unseen
      have hrest : (reach next (waiting ++ found.1) found.2).length ≤ waiting.length + unseen.length := by
        rw [List.length_append] at ih
        omega
      rw [reach, List.length_cons, List.length_cons, Nat.add_right_comm]
      exact Nat.succ_le_succ hrest

namespace Graph

/-! ## Ancestors -/

variable {g : Graph}

theorem mem_otherSlots (hg : g.Arena) {slot other : Nat} : other ∈ g.otherSlots slot ↔ g.Live other ∧ other ≠ slot := by
  rw [otherSlots, List.mem_filter, List.mem_map, bne_iff_ne]
  refine and_congr_left fun _ => ?_
  constructor
  · rintro ⟨n, hn, rfl⟩
    obtain ⟨s, hs⟩ := mem_nodeList.mp hn
    rw [hg.slot hs]
    exact live_iff.mpr ⟨n, hs⟩
  · intro hlive
    obtain ⟨n, hn⟩ := live_iff.mp hlive
    exact ⟨n, mem_nodeList.mpr ⟨other, hn⟩, hg.slot hn⟩

/-- A node is walked back to from another over an edge. -/
def Precedes (g : Graph) (source target : Nat) : Prop := ∃ v ∈ g.arriving target, v.source = source

/-- **The ancestors of a node** are the nodes from which it can be reached, itself among them. -/
theorem mem_ancestors (hg : g.Arena) (hindexed : g.Indexed) {slot other : Nat} :
    other ∈ g.ancestors slot ↔ ReflTransGen g.reindex.Precedes other slot := by
  have hg : g.reindex.Arena := (Mutation.reindex g).arena hg
  have hindexed : g.reindex.Indexed := (Mutation.reindex g).indexed hindexed
  have hnext : ∀ {a b : Nat}, b ∈ (g.reindex.arriving a).map EdgeView.source ↔ g.reindex.Precedes b a := by
    intro a b
    rw [List.mem_map]
    rfl
  have hback : ReflTransGen g.reindex.Precedes other slot ↔ ReflTransGen (flip g.reindex.Precedes) slot other :=
    Relation.reflTransGen_swap.symm
  rw [hback, ancestors]
  clear hback
  constructor
  · intro hother
    obtain ⟨start, hstart, hpath⟩ := (mem_reach _).mp hother
    obtain rfl := List.mem_singleton.mp hstart
    exact ReflTransGen.mono (fun _ _ h => hnext.mp h.1) _ _ hpath
  · intro hpath
    induction hpath with
    | refl => exact mem_reach_of_waiting _ List.mem_cons_self
    | @tail a b _ hstep ih =>
        by_cases hb : b = slot
        · exact hb ▸ mem_reach_of_waiting _ List.mem_cons_self
        · obtain ⟨v, hv, rfl⟩ := hstep
          have hlive := (hg.live_of_view ((mem_arriving hg hindexed).mp hv).1).1
          exact reach_closed _ _ _ ih (hnext.mpr ⟨v, hv, rfl⟩) ((mem_otherSlots hg).mpr ⟨hlive, hb⟩)

/-- The walk back from a node ends in every graph. -/
theorem length_ancestors_le (g : Graph) (slot : Nat) : (g.ancestors slot).length ≤ g.nodeList.length + 1 := by
  have hwalk := length_reach_le (fun s => (g.reindex.arriving s).map EdgeView.source) [slot] (g.reindex.otherSlots slot)
  have hothers : (g.reindex.otherSlots slot).length ≤ g.nodeList.length := by
    have hfilter := List.length_filter_le (· != slot) (g.reindex.nodeList.map Node.slot)
    rwa [List.length_map] at hfilter
  rw [List.length_singleton] at hwalk
  rw [Nat.add_comm]
  exact Nat.le_trans hwalk (Nat.add_le_add_left hothers 1)

theorem nodup_ancestors (hg : g.Arena) (slot : Nat) : (g.ancestors slot).Nodup := by
  have hg : g.reindex.Arena := (Mutation.reindex g).arena hg
  refine nodup_reach _ (List.nodup_cons.mpr ⟨fun hslot => ?_, hg.nodup_slots.filter _⟩)
  exact ((mem_otherSlots hg).mp hslot).2 rfl

end Graph

end SearchLab
