import SearchLab.Proofs.Graph.Reachable
import SearchLab.Proofs.Graph.Search

/-!
# Distances are exact

A walk goes from node to node over edges that may be walked in the direction in which they are seen. Over exact costs,
where each of these edges costs something, the search answers with the least cost of all walks: forwards from a node to
every other, and backwards from every node to one.

* `Walk` — the walks of a graph, with what they cost;
* `way_iff_walk`, `way_back_iff_walk` — what the search goes along, in either direction, are the walks;
* `distances_eq` — the search ends, with the least costs;
* `distances_are_least` — the distances from a node, and to it.
-/

namespace SearchLab.Graph

/-- What it costs to walk an edge; without weights 1. -/
def price (weighted : Bool) (v : EdgeView) : WithTop ℚ := if weighted then Cost.ofNumber v.edge.weight else Cost.ofNat 1

/-- Every edge that may be walked costs a number above zero. -/
def HasPositiveCosts (g : Graph) : Prop :=
  ∀ v : EdgeView, v.edge ∈ g.edgeList → g.isTraversable v = true →
    ∃ q : ℚ, 0 < q ∧ (Cost.ofNumber v.edge.weight : WithTop ℚ) = q

/-- The walks from a node over edges that may be walked, with what they cost. -/
inductive Walk (g : Graph) (weighted : Bool) (start : Nat) : Nat → WithTop ℚ → Prop
  | stay : Walk g weighted start start 0
  | step {slot : Nat} {c : WithTop ℚ} {v : EdgeView} (h : Walk g weighted start slot c) (hedge : v.edge ∈ g.edgeList)
      (hsource : v.source = slot) (hopen : g.isTraversable v = true) :
      Walk g weighted start v.target (c + price weighted v)

variable {g : Graph} {weighted : Bool} {start slot goal : Nat} {c : WithTop ℚ}

/-- A walk with one edge more in front of it. -/
theorem Walk.prepend {v : EdgeView} (hedge : v.edge ∈ g.edgeList) (hopen : g.isTraversable v = true)
    (h : Walk g weighted v.target goal c) : Walk g weighted v.source goal (price weighted v + c) := by
  induction h with
  | stay =>
      have hfirst : Walk g weighted v.source v.target (0 + price weighted v) := Walk.stay.step hedge rfl hopen
      rw [add_zero]
      rwa [zero_add] at hfirst
  | @step slot c next _ hedge' hsource hopen' ih =>
      rw [← add_assoc]
      exact ih.step hedge' hsource hopen'

/-! ## What a search goes along -/

section Steps

variable {κ : Type} [Cost κ] (hg : g.Arena) (hindexed : g.Indexed)
include hg hindexed

theorem mem_steps_iff {next : Nat} {w : κ} :
    (next, w) ∈ g.reindex.steps weighted false slot ↔
      ∃ v : EdgeView, v.edge ∈ g.edgeList ∧ g.isTraversable v = true ∧ v.source = slot ∧ v.target = next ∧
        (if weighted then Cost.ofNumber v.edge.weight else Cost.ofNat 1) = w := by
  have hleaving : ∀ {v}, v ∈ g.reindex.leaving slot ↔ v.edge ∈ g.edgeList ∧ v.source = slot ∧
      (false = true ∨ g.isTraversable v = true) :=
    mem_leaving ((Mutation.reindex g).arena hg) ((Mutation.reindex g).indexed hindexed)
  simp only [steps, Bool.false_eq_true, if_false, List.mem_map, Prod.mk.injEq]
  constructor
  · rintro ⟨v, hv, rfl, rfl⟩
    obtain ⟨hedge, hsource, hopen⟩ := hleaving.mp hv
    exact ⟨v, hedge, by simpa using hopen, hsource, rfl, rfl⟩
  · rintro ⟨v, hedge, hopen, hsource, rfl, rfl⟩
    exact ⟨v, hleaving.mpr ⟨hedge, hsource, .inr hopen⟩, rfl, rfl⟩

theorem mem_steps_back_iff {next : Nat} {w : κ} :
    (next, w) ∈ g.reindex.steps weighted true slot ↔
      ∃ v : EdgeView, v.edge ∈ g.edgeList ∧ g.isTraversable v = true ∧ v.target = slot ∧ v.source = next ∧
        (if weighted then Cost.ofNumber v.edge.weight else Cost.ofNat 1) = w := by
  have harriving : ∀ {v}, v ∈ g.reindex.arriving slot ↔ v.edge ∈ g.edgeList ∧ v.target = slot ∧
      (false = true ∨ g.isTraversable v = true) :=
    mem_arriving ((Mutation.reindex g).arena hg) ((Mutation.reindex g).indexed hindexed)
  simp only [steps, if_true, List.mem_map, Prod.mk.injEq]
  constructor
  · rintro ⟨v, hv, rfl, rfl⟩
    obtain ⟨hedge, htarget, hopen⟩ := harriving.mp hv
    exact ⟨v, hedge, by simpa using hopen, htarget, rfl, rfl⟩
  · rintro ⟨v, hedge, hopen, htarget, rfl, rfl⟩
    exact ⟨v, harriving.mpr ⟨hedge, htarget, .inr hopen⟩, rfl, rfl⟩

end Steps

section Ways

variable (hg : g.Arena) (hindexed : g.Indexed)
include hg hindexed

/-- Forwards the search goes along walks. -/
theorem way_iff_walk : Way (g.reindex.steps weighted false) start slot c ↔ Walk g weighted start slot c := by
  constructor <;> intro h
  · induction h with
    | stay => exact .stay
    | step _ hstep ih =>
        obtain ⟨v, hedge, hopen, hsource, rfl, rfl⟩ := (mem_steps_iff hg hindexed).mp hstep
        exact ih.step hedge hsource hopen
  · induction h with
    | stay => exact .stay
    | @step slot c v _ hedge hsource hopen ih =>
        exact ih.step ((mem_steps_iff hg hindexed).mpr ⟨v, hedge, hopen, hsource, rfl, rfl⟩)

/-- Backwards the search goes along walks, too. -/
theorem way_back_iff_walk : Way (g.reindex.steps weighted true) goal slot c ↔ Walk g weighted slot goal c := by
  constructor <;> intro h
  · induction h with
    | stay => exact .stay
    | step _ hstep ih =>
        obtain ⟨v, hedge, hopen, htarget, rfl, rfl⟩ := (mem_steps_back_iff hg hindexed).mp hstep
        subst htarget
        have hwalk := ih.prepend hedge hopen
        rw [add_comm] at hwalk
        exact hwalk
  · -- Of a walk that ends where a way back begins, the edges are gone back one by one.
    have hback : ∀ {other c c'}, Way (g.reindex.steps weighted true) goal other c' → Walk g weighted slot other c →
        Way (g.reindex.steps weighted true) goal slot (c' + c) := by
      intro other c c' hway hwalk
      induction hwalk generalizing c' with
      | stay => rwa [add_zero]
      | @step other c v _ hedge hsource hopen ih =>
          have hstep : Way (g.reindex.steps weighted true) goal other (c' + price weighted v) :=
            hway.step ((mem_steps_back_iff hg hindexed).mpr ⟨v, hedge, hopen, rfl, hsource, rfl⟩)
          have hrest := ih hstep
          rwa [add_assoc, add_comm (price weighted v)] at hrest
    have hwhole : Way (g.reindex.steps weighted true) goal slot (0 + c) := hback .stay h
    rwa [zero_add] at hwhole

end Ways

/-! ## The search of a graph -/

/-- Every node is looked up under its id. -/
theorem nodeCount_eq (hg : g.Arena) : g.nodeCount = g.nodeList.length := by
  have hkeys : g.slots.keys.Perm (g.nodeList.map Node.id) := by
    refine (List.perm_ext_iff_of_nodup Std.HashMap.nodup_keys hg.nodup_ids).mpr fun id => ?_
    rw [Std.HashMap.mem_keys, ← Std.HashMap.isSome_getElem?_iff_mem, List.mem_map, Option.isSome_iff_exists]
    constructor
    · rintro ⟨s, hs⟩
      obtain ⟨n, hn, rfl⟩ := (hg.lookup id s).mp hs
      exact ⟨n, mem_nodeList.mpr ⟨s, hn⟩, rfl⟩
    · rintro ⟨n, hn, rfl⟩
      obtain ⟨s, hs⟩ := mem_nodeList.mp hn
      exact ⟨s, (hg.lookup _ s).mpr ⟨n, hs, rfl⟩⟩
  rw [nodeCount, ← Std.HashMap.length_keys, hkeys.length_eq, List.length_map]

/-- The slots of all nodes. -/
def liveSlots (g : Graph) : Finset Nat := (g.nodeList.map Node.slot).toFinset

theorem mem_liveSlots (hg : g.Arena) {slot : Nat} : slot ∈ g.liveSlots ↔ g.Live slot := by
  rw [liveSlots, List.mem_toFinset, List.mem_map]
  constructor
  · rintro ⟨n, hn, rfl⟩
    obtain ⟨s, hs⟩ := mem_nodeList.mp hn
    rw [hg.slot hs]
    exact live_iff.mpr ⟨n, hs⟩
  · intro hlive
    obtain ⟨n, hn⟩ := live_iff.mp hlive
    exact ⟨n, mem_nodeList.mpr ⟨slot, hn⟩, hg.slot hn⟩

theorem lt_size_of_mem_liveSlots (hg : g.Arena) (h : slot ∈ g.liveSlots) : slot < g.nodes.size := by
  obtain ⟨n, hn⟩ := live_iff.mp ((mem_liveSlots hg).mp h)
  exact lt_size_of_node? hn

theorem card_liveSlots_le (hg : g.Arena) : g.liveSlots.card ≤ g.nodeCount := by
  rw [nodeCount_eq hg, ← List.length_map Node.slot]
  exact List.toFinset_card_le _

/-- An edge ends at nodes. -/
theorem mem_liveSlots_of_view (hg : g.Arena) {v : EdgeView} (hedge : v.edge ∈ g.edgeList) :
    v.source ∈ g.liveSlots ∧ v.target ∈ g.liveSlots :=
  (hg.live_of_view hedge).imp (mem_liveSlots hg).mpr (mem_liveSlots hg).mpr

theorem length_flatMap_le {α β : Type} {f : α → List β} {n : Nat} (h : ∀ a, (f a).length ≤ n) (as : List α) :
    (as.flatMap f).length ≤ n * as.length := by
  induction as with
  | nil => exact Nat.zero_le _
  | cons a rest ih =>
      rw [List.flatMap_cons, List.length_append, List.length_cons, Nat.mul_add, Nat.mul_one, Nat.add_comm]
      exact Nat.add_le_add ih (h a)

section

variable {κ : Type} [Cost κ]

/-- No more edges are seen from a node, or towards it, than twice the stored ones. -/
theorem length_steps_le (hg : g.Arena) (hindexed : g.Indexed) (backwards : Bool) (slot : Nat) :
    (g.reindex.steps (κ := κ) weighted backwards slot).length ≤ 2 * g.edgeCount := by
  have hg' := (Mutation.reindex g).arena hg
  have hindexed' := (Mutation.reindex g).indexed hindexed
  have hfrom : ∀ e, (viewsFrom slot e).length ≤ 2 := by
    intro e
    by_cases hsource : e.source = slot <;> by_cases htarget : e.target = slot <;> simp [viewsFrom, hsource, htarget]
  have hto : ∀ e, (viewsTo slot e).length ≤ 2 := by
    intro e
    by_cases hsource : e.source = slot <;> by_cases htarget : e.target = slot <;> simp [viewsTo, hsource, htarget]
  cases backwards
  · simp only [steps, Bool.false_eq_true, if_false, List.length_map]
    rw [leaving_eq hg' hindexed']
    exact (List.length_filter_le _ _).trans (length_flatMap_le hfrom _)
  · simp only [steps, if_true, List.length_map]
    rw [arriving_eq hg' hindexed']
    exact (List.length_filter_le _ _).trans (length_flatMap_le hto _)

/-- A step leads to a node. -/
theorem mem_liveSlots_of_step (hg : g.Arena) (hindexed : g.Indexed) (backwards : Bool) {next : Nat} {w : κ}
    (hstep : (next, w) ∈ g.reindex.steps weighted backwards slot) : next ∈ g.liveSlots := by
  cases backwards
  · obtain ⟨v, hedge, -, -, rfl, -⟩ := (mem_steps_iff hg hindexed).mp hstep
    exact (mem_liveSlots_of_view hg hedge).2
  · obtain ⟨v, hedge, -, -, rfl, -⟩ := (mem_steps_back_iff hg hindexed).mp hstep
    exact (mem_liveSlots_of_view hg hedge).1

variable [LinearOrder κ] [OrderTop κ]

theorem network_steps (hg : g.Arena) (hindexed : g.Indexed) (backwards : Bool)
    (hclimbs : ∀ v : EdgeView, v.edge ∈ g.edgeList → g.isTraversable v = true →
      Cost.Climbs (if weighted then Cost.ofNumber v.edge.weight else Cost.ofNat 1 : κ)) :
    Network (κ := κ) (g.reindex.steps weighted backwards) g.liveSlots (2 * g.edgeCount) where
  closed := mem_liveSlots_of_step hg hindexed backwards
  price {slot next w} hstep := by
    cases backwards
    · obtain ⟨v, hedge, hopen, -, -, rfl⟩ := (mem_steps_iff hg hindexed).mp hstep
      exact hclimbs v hedge hopen
    · obtain ⟨v, hedge, hopen, -, -, rfl⟩ := (mem_steps_back_iff hg hindexed).mp hstep
      exact hclimbs v hedge hopen
  degree := length_steps_le hg hindexed backwards

end

theorem climbs_price (hcosts : weighted = true → g.HasPositiveCosts) {v : EdgeView} (hedge : v.edge ∈ g.edgeList)
    (hopen : g.isTraversable v = true) : Cost.Climbs (price weighted v) := by
  cases weighted with
  | false =>
      have hone : price false v = ((1 : ℚ) : WithTop ℚ) := by simp [price]
      rw [hone]
      exact Cost.climbs_of_nonneg zero_le_one
  | true =>
      obtain ⟨q, hpos, hq⟩ := hcosts rfl v hedge hopen
      have hprice : price true v = q := hq
      rw [hprice]
      exact Cost.climbs_of_nonneg hpos.le

/-- There are turns enough for so many visits to nodes. -/
theorem le_turns_of_le {visits : Nat} (h : visits ≤ 2 ^ g.nodeCount) : 1 + 2 * g.edgeCount * visits ≤ g.turns := by
  have hword : 1 ≤ Word.size := Nat.one_le_two_pow
  calc 1 + 2 * g.edgeCount * visits
      ≤ 2 ^ g.nodeCount + 2 * g.edgeCount * 2 ^ g.nodeCount :=
        Nat.add_le_add Nat.one_le_two_pow (Nat.mul_le_mul_left _ h)
    _ ≤ (2 * g.edgeCount + 2) * 2 ^ g.nodeCount := by rw [Nat.add_mul]; omega
    _ ≤ (2 * g.edgeCount + 2) * (2 ^ g.nodeCount * Word.size) :=
        Nat.mul_le_mul_left _ (Nat.le_mul_of_pos_right _ hword)

/-- There are turns enough for one visit to each node. -/
theorem le_turns (hg : g.Arena) : 1 + 2 * g.edgeCount * g.liveSlots.card ≤ g.turns :=
  le_turns_of_le ((card_liveSlots_le hg).trans Nat.lt_two_pow_self.le)

/-- **The search of a graph ends**, with the least costs of all ways, if no edge brings a cost down. -/
theorem distances_eq {κ : Type} [LinearOrder κ] [OrderTop κ] [Cost κ] [Cost.LawfulCost κ] (hg : g.Arena)
    (hindexed : g.Indexed) (weighted backwards : Bool)
    (hclimbs : ∀ v : EdgeView, v.edge ∈ g.edgeList → g.isTraversable v = true →
      Cost.Climbs (if weighted then Cost.ofNumber v.edge.weight else Cost.ofNat 1 : κ))
    {origin : Nat} (horigin : g.Live origin) :
    ∃ cost : Nat → κ,
      g.distances origin weighted backwards = some (g.nodeList.map fun n => (n.id, cost n.slot)) ∧
      cost origin = Cost.ofNat 0 ∧
      ∀ slot, Cheapest {c | Way (g.reindex.steps weighted backwards) origin slot c} (cost slot) := by
  have hnet := network_steps hg hindexed backwards hclimbs
  obtain ⟨t, hrun, hleast⟩ := run_cheapest hnet (fun slot hslot => lt_size_of_mem_liveSlots hg hslot)
    ((mem_liveSlots hg).mpr horigin) (le_turns hg)
  refine ⟨t.cost, ?_, cheapest_origin hnet (hleast origin), hleast⟩
  have hsearch : Search.run (g.reindex.steps weighted backwards) g.reindex.turns (g.reindex.searchFrom origin) = some t :=
    hrun
  unfold distances
  rw [if_neg (by simpa [Live, Option.isSome_iff_ne_none] using horigin)]
  dsimp only
  rw [hsearch]
  rfl

/-! ## Distances -/

/-- What is listed of some members under their own keys is found there. -/
theorem lookup_map_of_nodup {α β : Type} (key : α → String) (value : α → β) {as : List α} (h : (as.map key).Nodup) {a : α}
    (ha : a ∈ as) : (as.map fun a => (key a, value a)).lookup (key a) = some (value a) := by
  induction as with
  | nil => cases ha
  | cons other rest ih =>
      obtain ⟨hother, hrest⟩ := List.nodup_cons.mp h
      rw [List.map_cons, List.lookup_cons]
      rcases List.mem_cons.mp ha with rfl | ha
      · simp
      · have hne : key a ≠ key other := fun heq => hother (heq ▸ List.mem_map_of_mem ha)
        rw [beq_eq_false_iff_ne.mpr hne]
        exact ih hrest ha

/-- What is listed of the nodes of a graph is found under the ids of their slots. -/
theorem lookup_of_idOf? (hg : g.Arena) {β : Type} (value : Nat → β) {id : String} (hid : g.idOf? slot = some id) :
    (g.nodeList.map fun n => (n.id, value n.slot)).lookup id = some (value slot) := by
  obtain ⟨n, hn, rfl⟩ := Option.map_eq_some_iff.mp hid
  have hlisted := lookup_map_of_nodup Node.id (fun n => value n.slot) hg.nodup_ids (mem_nodeList.mpr ⟨slot, hn⟩)
  rwa [hg.slot hn] at hlisted

/-- **Distances are exact.** From a node of a graph in which every edge that may be walked costs something, with weights
or without, the search ends, and it answers for every node with the least cost of all walks there: with 0 for the node
itself, and above all numbers exactly where there is no walk. Between any two nodes, the distance backwards from the
second is the one forwards from the first. -/
theorem distances_are_least (hg : g.Reachable) (hcosts : g.HasPositiveCosts) :
    (∀ {start : Nat}, g.Live start → ∀ weighted : Bool, ∃ cost : Nat → WithTop ℚ,
      g.distancesFrom start weighted = some (g.nodeList.map fun n => (n.id, cost n.slot)) ∧ cost start = 0 ∧
      ∀ n ∈ g.nodeList, (cost n.slot = ⊤ ↔ ∀ c, ¬ g.Walk weighted start n.slot c) ∧
        (cost n.slot ≠ ⊤ → IsLeast {c | g.Walk weighted start n.slot c} (cost n.slot))) ∧
    ∀ m ∈ g.nodeList, ∀ n ∈ g.nodeList, ∃ (there back : List (String × WithTop ℚ)) (d : WithTop ℚ),
      g.distancesFrom m.slot true = some there ∧ g.distancesTo n.slot = some back ∧
        there.lookup n.id = some d ∧ back.lookup m.id = some d := by
  obtain ⟨harena, hindexed⟩ := hg.arena_indexed
  constructor
  · intro start hstart weighted
    obtain ⟨cost, hfound, hzero, hleast⟩ := distances_eq harena hindexed weighted false (fun _ => climbs_price fun _ => hcosts) hstart
    refine ⟨cost, hfound, hzero, fun n _ => ?_⟩
    have hways : {c | Way (g.reindex.steps weighted false) start n.slot c} = {c | g.Walk weighted start n.slot c} :=
      Set.ext fun c => way_iff_walk harena hindexed
    rcases hways ▸ hleast n.slot with ⟨htop, hempty⟩ | ⟨hfinite, hleast⟩
    · exact ⟨iff_of_true htop fun c hc => (Set.eq_empty_iff_forall_notMem.mp hempty) c hc, fun h => absurd htop h⟩
    · exact ⟨iff_of_false hfinite fun hnone => hnone _ hleast.1, fun _ => hleast⟩
  · intro m hm n hn
    have hlive : ∀ {n}, n ∈ g.nodeList → g.Live n.slot := fun hn =>
      (mem_liveSlots harena).mp (List.mem_toFinset.mpr (List.mem_map_of_mem hn))
    obtain ⟨there, hthere, -, hforwards⟩ := distances_eq harena hindexed true false (fun _ => climbs_price fun _ => hcosts) (hlive hm)
    obtain ⟨back, hback, -, hbackwards⟩ := distances_eq harena hindexed true true (fun _ => climbs_price fun _ => hcosts) (hlive hn)
    have hways : {c | Way (g.reindex.steps true true) n.slot m.slot c} = {c | Way (g.reindex.steps true false) m.slot n.slot c} :=
      Set.ext fun c => (way_back_iff_walk harena hindexed).trans (way_iff_walk harena hindexed).symm
    have hsame : back m.slot = there n.slot := (hways ▸ hbackwards m.slot).unique (hforwards n.slot)
    refine ⟨_, _, there n.slot, hthere, hback, lookup_map_of_nodup Node.id (fun n => there n.slot) harena.nodup_ids hn, ?_⟩
    rw [← hsame]
    exact lookup_map_of_nodup Node.id (fun n => back n.slot) harena.nodup_ids hm

/-- Two nodes one after the other, and a third that both lead to: the second for less than the first. -/
def shortcut : Graph :=
  ((((((empty.withNode "A" 0 0 []).withNode "B" 0 0 []).withNode "C" 0 0 []).withEdge 0 1 false []).restructured.withEdge
    1 2 true []).restructured.withEdge 0 2 false [("w", .number (.float 2.5))]).restructured

theorem reachable_shortcut : shortcut.Reachable := by
  have hfirst := (Reachable.fresh .freeForm).withNode "A" [] rfl (by simp [slot?, empty])
  have hsecond := hfirst.withNode "B" [] rfl (by rw [slot?_withNode]; simp [slot?, empty])
  have hnodes := hsecond.withNode "C" [] rfl (by rw [slot?_withNode, slot?_withNode]; simp [slot?, empty])
  exact ((hnodes.run (.addEdge 0 1 false [])).run (.addEdge 1 2 true [])).run
    (.addEdge 0 2 false [("w", .number (.float 2.5))])

theorem costs_shortcut {e : Edge} (he : e ∈ shortcut.edgeList) :
    ∃ q : ℚ, 0 < q ∧ (Cost.ofNumber e.weight : WithTop ℚ) = q := by
  have hedges : shortcut.edgeList =
      [⟨⟨1⟩, 0, 1, false, [], []⟩, ⟨⟨2⟩, 1, 2, true, [], []⟩, ⟨⟨3⟩, 0, 2, false, [("w", .number (.float 2.5))], []⟩] := rfl
  rw [hedges] at he
  simp only [List.mem_cons, List.not_mem_nil, or_false] at he
  rcases he with h | h | h <;> rw [h]
  · exact ⟨1, one_pos, by decide +kernel⟩
  · exact ⟨1, one_pos, by decide +kernel⟩
  · exact ⟨5 / 2, by norm_num, by decide +kernel⟩

theorem positive_shortcut : shortcut.HasPositiveCosts := fun _ hedge _ => costs_shortcut hedge

/-- Distances from the first node, and between the first and the third. -/
theorem distances_are_least_shortcut :
    (shortcut.Reachable ∧ shortcut.HasPositiveCosts ∧ shortcut.Live 0) ∧
    (∃ cost : Nat → WithTop ℚ, shortcut.distancesFrom 0 true = some [("A", cost 0), ("B", cost 1), ("C", cost 2)] ∧
      cost 0 = 0 ∧ IsLeast {c | shortcut.Walk true 0 2 c} (cost 2)) ∧
    ∃ (there back : List (String × WithTop ℚ)) (d : WithTop ℚ), shortcut.distancesFrom 0 true = some there ∧
      shortcut.distancesTo 2 = some back ∧ there.lookup "C" = some d ∧ back.lookup "A" = some d := by
  have hlive : shortcut.Live 0 := rfl
  obtain ⟨cost, hfound, hzero, hleast⟩ := (distances_are_least reachable_shortcut positive_shortcut).1 hlive true
  obtain ⟨there, back, d, hpair⟩ := (distances_are_least reachable_shortcut positive_shortcut).2
    ⟨0, "A", 0, 0, [], []⟩ (.head _) ⟨2, "C", 0, 0, [], []⟩ (.tail _ (.tail _ (.head _)))
  obtain ⟨htop, hway⟩ := hleast ⟨2, "C", 0, 0, [], []⟩ (.tail _ (.tail _ (.head _)))
  have hwalk : shortcut.Walk true 0 2 (0 + price true ⟨⟨⟨3⟩, 0, 2, false, [("w", .number (.float 2.5))], []⟩, false⟩) :=
    Walk.stay.step (v := ⟨⟨⟨3⟩, 0, 2, false, [("w", .number (.float 2.5))], []⟩, false⟩) (.tail _ (.tail _ (.head _))) rfl rfl
  exact ⟨⟨reachable_shortcut, positive_shortcut, hlive⟩,
    ⟨cost, hfound, hzero, hway fun hnone => htop.mp hnone _ hwalk⟩, there, back, d, hpair⟩

end SearchLab.Graph
