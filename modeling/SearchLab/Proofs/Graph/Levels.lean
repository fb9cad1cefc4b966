import Mathlib.Order.Lattice.Nat
import SearchLab.Proofs.Graph.Reach

/-!
# A breadth-first walk goes level by level

The level of a node is the least number of steps to it. A walk comes to the nodes in the order of their levels: the nodes
that wait are on one level or on two, in order, and every node that was not seen is behind the first of them. What keeps
it so is that nothing behind a node that was followed is unseen, so that the last node of a level finds what is left of
the next one.

* `Hops`, `level` — what can be reached with so many steps, and with how many at least;
* `Frontier` — what holds between the nodes that wait and those that were not seen;
* `Frontier.advance` — following a node keeps that;
* `Frontier.pairwise_level_reach` — the nodes of a walk are in the order of their levels;
* `Graph.walk`, `Graph.mem_walk` — the walk through a graph, and what it comes to.
-/

namespace SearchLab

open Relation (ReflTransGen)

/-! ## Levels -/

/-- What can be reached with so many steps, where `next` are the nodes one step behind a node. -/
inductive Hops (next : Nat → List Nat) (start : Nat) : Nat → Nat → Prop
  | stay : Hops next start start 0
  | step {slot other n : Nat} (h : Hops next start slot n) (hstep : other ∈ next slot) : Hops next start other (n + 1)

/-- The least number of steps to a node that can be reached. -/
noncomputable def level (next : Nat → List Nat) (start slot : Nat) : Nat := sInf {n | Hops next start slot n}

variable {next : Nat → List Nat} {start slot other n : Nat}

theorem exists_hops_iff : (∃ n, Hops next start slot n) ↔ ReflTransGen (fun a b => b ∈ next a) start slot := by
  constructor
  · rintro ⟨n, h⟩
    induction h with
    | stay => exact .refl
    | step _ hstep ih => exact ih.tail hstep
  · intro h
    induction h with
    | refl => exact ⟨0, .stay⟩
    | tail _ hstep ih =>
        obtain ⟨n, hn⟩ := ih
        exact ⟨n + 1, hn.step hstep⟩

theorem level_le (h : Hops next start slot n) : level next start slot ≤ n := Nat.sInf_le h

theorem hops_level (h : ∃ n, Hops next start slot n) : Hops next start slot (level next start slot) := Nat.sInf_mem h

/-- A step leads one level further at most. -/
theorem level_step_le (h : ∃ n, Hops next start slot n) (hstep : other ∈ next slot) :
    level next start other ≤ level next start slot + 1 :=
  level_le ((hops_level h).step hstep)

/-- A node is one step behind a node of the level before its own. -/
theorem exists_level_before (h : ∃ n, Hops next start slot n) (hlevel : level next start slot = n + 1) :
    ∃ before, (∃ n, Hops next start before n) ∧ slot ∈ next before ∧ level next start before = n := by
  have hhops := hops_level h
  rw [hlevel] at hhops
  cases hhops with
  | @step before _ _ hbefore hstep =>
      have hle := level_le hbefore
      have hge := level_step_le ⟨n, hbefore⟩ hstep
      exact ⟨before, ⟨n, hbefore⟩, hstep, by omega⟩

/-! ## The frontier of a walk -/

/-- What holds between the nodes that wait and those that were not seen: the nodes that wait are in the order of their
levels, which are two at most; the unseen ones are behind the first of them; and all others were followed. -/
structure Frontier (next : Nat → List Nat) (start : Nat) (waiting unseen : List Nat) : Prop where
  nodup : (waiting ++ unseen).Nodup
  reached : ∀ slot ∈ waiting, ∃ n, Hops next start slot n
  sorted : waiting.Pairwise fun a b => level next start a ≤ level next start b
  near : ∀ a ∈ waiting, ∀ b ∈ waiting, level next start b ≤ level next start a + 1
  ahead : ∀ {first}, waiting.head? = some first → ∀ slot ∈ unseen, (∃ n, Hops next start slot n) →
    level next start first < level next start slot
  closed : ∀ {slot}, slot ∉ waiting → slot ∉ unseen → (∃ n, Hops next start slot n) → ∀ other ∈ next slot, other ∉ unseen

namespace Frontier

variable {first : Nat} {waiting unseen : List Nat}

/-- Before the first step. -/
theorem initial (hunseen : unseen.Nodup) (hstart : start ∉ unseen)
    (hall : ∀ slot, (∃ n, Hops next start slot n) → slot ≠ start → slot ∈ unseen) :
    Frontier next start [start] unseen where
  nodup := List.nodup_cons.mpr ⟨hstart, hunseen⟩
  reached slot hslot := by
    obtain rfl := List.mem_singleton.mp hslot
    exact ⟨0, .stay⟩
  sorted := List.pairwise_singleton _ _
  near a ha b hb := by
    obtain rfl := List.mem_singleton.mp ha
    obtain rfl := List.mem_singleton.mp hb
    exact Nat.le_succ _
  ahead {first} hfirst slot hslot hreached := by
    obtain rfl : start = first := Option.some.inj hfirst
    have hzero : level next start start = 0 := Nat.le_zero.mp (level_le .stay)
    rw [hzero]
    refine Nat.pos_of_ne_zero fun hnone => hstart ?_
    have hhops := hops_level hreached
    rw [hnone] at hhops
    cases hhops
    exact hslot
  closed {slot} hwaiting hseen hreached := by
    exact absurd (hall slot hreached fun heq => hwaiting (heq ▸ List.mem_cons_self)) hseen

/-- The first of the nodes that wait is on the least of their levels. -/
theorem level_head?_le (h : waiting.Pairwise fun a b => level next start a ≤ level next start b)
    (hfirst : waiting.head? = some first) (hslot : slot ∈ waiting) : level next start first ≤ level next start slot := by
  obtain ⟨rest, rfl⟩ := List.head?_eq_some_iff.mp hfirst
  rcases List.mem_cons.mp hslot with rfl | hslot
  · exact le_rfl
  · exact (List.pairwise_cons.mp h).1 slot hslot

/-- The unseen nodes behind the first one are on the next level. -/
theorem level_found (h : Frontier next start (first :: waiting) unseen) (hslot : slot ∈ (fresh (next first) unseen).1) :
    level next start slot = level next start first + 1 ∧ ∃ n, Hops next start slot n := by
  obtain ⟨hstep, hunseen⟩ := mem_fresh.mp hslot
  have hfirst := h.reached first List.mem_cons_self
  have hreached : ∃ n, Hops next start slot n := ⟨_, (hops_level hfirst).step hstep⟩
  have hle := level_step_le hfirst hstep
  have hless := h.ahead rfl slot hunseen hreached
  exact ⟨by omega, hreached⟩

/-- What waits when a node was followed is on its level or on the next one. -/
theorem level_next (h : Frontier next start (first :: waiting) unseen)
    (hslot : slot ∈ waiting ++ (fresh (next first) unseen).1) :
    level next start first ≤ level next start slot ∧ level next start slot ≤ level next start first + 1 := by
  rcases List.mem_append.mp hslot with hslot | hslot
  · have hlow := (List.pairwise_cons.mp h.sorted).1 slot hslot
    exact ⟨hlow, h.near first List.mem_cons_self slot (List.mem_cons_of_mem first hslot)⟩
  · have hlevel := (h.level_found hslot).1
    omega

theorem nodup_next (h : Frontier next start (first :: waiting) unseen) :
    (waiting ++ (fresh (next first) unseen).1 ++ (fresh (next first) unseen).2).Nodup := by
  rw [List.append_assoc]
  exact ((fresh_perm (next first) unseen).append_left waiting).nodup_iff.mpr (List.nodup_cons.mp h.nodup).2

theorem sorted_next (h : Frontier next start (first :: waiting) unseen) :
    (waiting ++ (fresh (next first) unseen).1).Pairwise fun a b => level next start a ≤ level next start b := by
  refine List.pairwise_append.mpr
    ⟨(List.pairwise_cons.mp h.sorted).2, List.pairwise_of_forall_mem_list fun a ha b hb => ?_, fun a ha b hb => ?_⟩
  · rw [(h.level_found ha).1, (h.level_found hb).1]
  · rw [(h.level_found hb).1]
    exact (h.level_next (List.mem_append_left _ ha)).2

/-- Nothing is left unseen behind a node that neither waits then nor is unseen. -/
theorem closed_next (h : Frontier next start (first :: waiting) unseen)
    (hwaiting : slot ∉ waiting ++ (fresh (next first) unseen).1) (hseen : slot ∉ (fresh (next first) unseen).2)
    (hreached : ∃ n, Hops next start slot n) (hother : other ∈ next slot) : other ∉ (fresh (next first) unseen).2 := by
  intro hagain
  have hunseen : other ∈ unseen := mem_of_mem_fresh_snd hagain
  by_cases hfirst : slot = first
  · subst hfirst
    have hnew : other ∈ (fresh (next slot) unseen).1 := mem_fresh.mpr ⟨hother, hunseen⟩
    exact (List.nodup_append.mp h.nodup_next).2.2 other (List.mem_append_right _ hnew) other hagain rfl
  · have hgone : slot ∉ first :: waiting := fun hmem => by
      rcases List.mem_cons.mp hmem with heq | hmem
      · exact hfirst heq
      · exact hwaiting (List.mem_append_left _ hmem)
    have hbefore : slot ∉ unseen := fun hmem => by
      rcases mem_fresh_or (next first) hmem with hnew | hold
      · exact hwaiting (List.mem_append_right _ hnew)
      · exact hseen hold
    exact h.closed hgone hbefore hreached other hother hunseen

/-- Following a node keeps what holds. -/
theorem advance (h : Frontier next start (first :: waiting) unseen) :
    Frontier next start (waiting ++ (fresh (next first) unseen).1) (fresh (next first) unseen).2 where
  nodup := h.nodup_next
  reached slot hslot := by
    rcases List.mem_append.mp hslot with hslot | hslot
    · exact h.reached slot (List.mem_cons_of_mem first hslot)
    · exact (h.level_found hslot).2
  sorted := h.sorted_next
  near a ha b hb := by
    have hlow := (h.level_next ha).1
    have hhigh := (h.level_next hb).2
    omega
  ahead {head} hhead slot hslot hreached := by
    have hbehind := h.ahead rfl slot (mem_of_mem_fresh_snd hslot) hreached
    have hhigh := (h.level_next (List.mem_of_mem_head? hhead)).2
    refine Nat.lt_of_not_le fun hle => ?_
    -- Else the node is on the next level, and a node before it, on the level of the one that was followed, waits.
    obtain ⟨before, hbefore, hstep, hlevel⟩ := exists_level_before hreached (n := level next start first) (by omega)
    have hseen : before ∉ (fresh (next first) unseen).2 := fun hleft => by
      have hless := h.ahead rfl before (mem_of_mem_fresh_snd hleft) hbefore
      omega
    have hwaits : before ∈ waiting ++ (fresh (next first) unseen).1 :=
      by_contra fun hgone => h.closed_next hgone hseen hbefore hstep hslot
    have hleast := level_head?_le h.sorted_next hhead hwaits
    omega
  closed hwaiting hseen hreached _ hother := h.closed_next hwaiting hseen hreached hother

/-- What a walk comes to can be reached, and waits or is unseen. -/
theorem of_mem_reach (h : Frontier next start waiting unseen) (hslot : slot ∈ reach next waiting unseen) :
    (∃ n, Hops next start slot n) ∧ (slot ∈ waiting ∨ slot ∈ unseen) := by
  obtain ⟨origin, horigin, hpath⟩ := (mem_reach next).mp hslot
  constructor
  · have hwhole := ReflTransGen.mono (fun _ _ hstep => hstep.1) _ _ hpath
    exact exists_hops_iff.mpr ((exists_hops_iff.mp (h.reached origin horigin)).trans hwhole)
  · rcases ReflTransGen.cases_tail hpath with rfl | ⟨_, _, hstep⟩
    · exact .inl horigin
    · exact .inr hstep.2

/-- **A walk goes level by level.** -/
theorem pairwise_level_reach (h : Frontier next start waiting unseen) :
    (reach next waiting unseen).Pairwise fun a b => level next start a ≤ level next start b := by
  induction waiting, unseen using reach.induct next with
  | case1 => simp [reach]
  | case2 unseen first waiting found ih =>
      have hnext := h.advance
      rw [reach]
      refine List.pairwise_cons.mpr ⟨fun slot hslot => ?_, ih hnext⟩
      obtain ⟨hreached, hslot | hslot⟩ := hnext.of_mem_reach hslot
      · rcases List.mem_append.mp hslot with hslot | hslot
        · exact (List.pairwise_cons.mp h.sorted).1 slot hslot
        · rw [(h.level_found hslot).1]
          exact Nat.le_succ _
      · exact (h.ahead rfl slot (mem_of_mem_fresh_snd hslot) hreached).le

end Frontier

/-! ## The walk of a graph -/

namespace Graph

variable {g : Graph}

/-- An edge that may be walked leads from one node to another. -/
def Follows (g : Graph) (source target : Nat) : Prop :=
  ∃ v : EdgeView, v.edge ∈ g.edgeList ∧ g.isTraversable v = true ∧ v.source = source ∧ v.target = target

/-- The nodes one step behind a node, one for each edge. -/
def onward (g : Graph) (slot : Nat) : List Nat := (g.reindex.leaving slot).map EdgeView.target

theorem mem_onward (hg : g.Arena) (hindexed : g.Indexed) {slot other : Nat} :
    other ∈ g.onward slot ↔ g.Follows slot other := by
  have hleaving : ∀ {v}, v ∈ g.reindex.leaving slot ↔ v.edge ∈ g.edgeList ∧ v.source = slot ∧
      (false = true ∨ g.isTraversable v = true) :=
    mem_leaving ((Mutation.reindex g).arena hg) ((Mutation.reindex g).indexed hindexed)
  rw [onward, List.mem_map]
  constructor
  · rintro ⟨v, hv, rfl⟩
    obtain ⟨hedge, hsource, hopen⟩ := hleaving.mp hv
    exact ⟨v, hedge, by simpa using hopen, hsource, rfl⟩
  · rintro ⟨v, hedge, hopen, hsource, rfl⟩
    exact ⟨v, hleaving.mpr ⟨hedge, hsource, .inr hopen⟩, rfl⟩

theorem exists_hops_onward_iff (hg : g.Arena) (hindexed : g.Indexed) {start slot : Nat} :
    (∃ n, Hops g.onward start slot n) ↔ ReflTransGen g.Follows start slot := by
  have hsame : (fun a b => b ∈ g.onward a) = g.Follows := by
    funext a b
    exact propext (mem_onward hg hindexed)
  rw [exists_hops_iff, hsame]

theorem Follows.live (hg : g.Arena) {source target : Nat} (h : g.Follows source target) : g.Live target := by
  obtain ⟨v, hedge, -, -, rfl⟩ := h
  exact (hg.live_of_view hedge).2

/-- What can be reached from a node is a node. -/
theorem live_of_follows (hg : g.Arena) {start slot : Nat} (hstart : g.Live start) (h : ReflTransGen g.Follows start slot) :
    g.Live slot := by
  cases h with
  | refl => exact hstart
  | tail _ hstep => exact hstep.live hg

/-- The nodes one step behind a node are listed with it. -/
theorem successors_slots (hg : g.Arena) (hindexed : g.Indexed) (slot : Nat) :
    (g.reindex.successors slot).map Node.slot = g.onward slot := by
  rw [successors, List.map_filterMap, onward, ← List.filterMap_eq_map]
  refine List.filterMap_congr fun v hv => ?_
  have hlive : g.Live v.target := ((mem_onward hg hindexed).mp (List.mem_map_of_mem hv)).live hg
  obtain ⟨n, hn⟩ := live_iff.mp hlive
  have hn : g.reindex.node? v.target = some n := hn
  rw [hn, Option.map_some, hg.slot hn]
  rfl

/-- The nodes of a breadth-first walk from a node. -/
def walk (g : Graph) (start : Nat) : List Nat := reach g.onward [start] (g.otherSlots start)

section Walk

variable (hg : g.Arena) (hindexed : g.Indexed) {start slot : Nat}
include hg

theorem nodup_walk : (g.walk start).Nodup :=
  nodup_reach _ (List.nodup_cons.mpr ⟨fun hmem => ((mem_otherSlots hg).mp hmem).2 rfl, hg.nodup_slots.filter _⟩)

include hindexed

theorem frontier_start (hstart : g.Live start) : Frontier g.onward start [start] (g.otherSlots start) := by
  refine .initial (hg.nodup_slots.filter _) (fun hmem => ((mem_otherSlots hg).mp hmem).2 rfl) fun slot hreached hne => ?_
  exact (mem_otherSlots hg).mpr ⟨live_of_follows hg hstart ((exists_hops_onward_iff hg hindexed).mp hreached), hne⟩

/-- A walk through a graph comes to what can be reached. -/
theorem mem_walk (hstart : g.Live start) : slot ∈ g.walk start ↔ ReflTransGen g.Follows start slot := by
  constructor
  · intro hslot
    exact (exists_hops_onward_iff hg hindexed).mp ((frontier_start hg hindexed hstart).of_mem_reach hslot).1
  · intro hpath
    induction hpath with
    | refl => exact mem_reach_of_waiting _ List.mem_cons_self
    | @tail a b hpath hstep ih =>
        by_cases hb : b = start
        · exact hb ▸ mem_reach_of_waiting _ List.mem_cons_self
        · have hlive := hstep.live hg
          exact reach_closed _ _ _ ih ((mem_onward hg hindexed).mpr hstep) ((mem_otherSlots hg).mpr ⟨hlive, hb⟩)

/-- A walk through a graph goes level by level. -/
theorem pairwise_level_walk (hstart : g.Live start) :
    (g.walk start).Pairwise fun a b => level g.onward start a ≤ level g.onward start b :=
  (frontier_start hg hindexed hstart).pairwise_level_reach

end Walk

end Graph

end SearchLab
