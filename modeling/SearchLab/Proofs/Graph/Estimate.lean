import SearchLab.Proofs.Graph.Distances

/-!
# Estimates of the distance to the goal

An estimate may be wrong in two ways: it may drop across an edge by more than the edge costs, and it may be more than a node
is away from the goal. The first is seen at each edge by itself, the second takes a search. Along a walk the drops add up,
so an estimate without the first fault has the second one nowhere but for what it says at the goal.

* `Consistent` — no estimate drops by more than an edge costs;
* `inconsistent_eq_nil_iff` — then no edge is reported;
* `Consistent.le_of_walk` — then it drops along a walk by no more than the walk costs;
* `consistent_is_admissible` — and where it is at most zero at the goal, no node is reported either.
-/

namespace SearchLab.Graph

variable {g : Graph} {slot goal : Nat} {c : WithTop ℚ}

/-- Across no edge that may be walked does the estimate drop by more than the edge costs. -/
def Consistent (g : Graph) : Prop :=
  ∀ v : EdgeView, v.edge ∈ g.edgeList → g.isTraversable v = true →
    (g.heuristic v.source : WithTop ℚ) ≤ price true v + g.heuristic v.target

/-! ## Edges -/

/-- What is left of an estimate behind a cost is not above another estimate. -/
theorem less_sub_eq_false_iff (q : ℚ) (s t : WithTop ℚ) :
    Cost.less t (Cost.sub s (q : WithTop ℚ)) = false ↔ s ≤ q + t := by
  have hless : Cost.less t (Cost.sub s (q : WithTop ℚ)) = false ↔ Cost.sub s (q : WithTop ℚ) ≤ t := by
    rw [← not_lt, ← Cost.LawfulCost.less_iff, Bool.not_eq_true]
  rw [hless]
  cases s with
  | top =>
    have hsub : Cost.sub (⊤ : WithTop ℚ) q = ⊤ := rfl
    rw [hsub]
    simp
  | coe s =>
    cases t with
    | top => simp
    | coe t =>
      have hsub : Cost.sub (s : WithTop ℚ) q = ((s - q : ℚ) : WithTop ℚ) := rfl
      rw [hsub, ← WithTop.coe_add, WithTop.coe_le_coe, WithTop.coe_le_coe]
      exact sub_le_iff_le_add'

/-- No edge is reported where the estimate drops across none by more than it costs. -/
theorem inconsistent_eq_nil_iff (hcosts : g.HasPositiveCosts) :
    g.inconsistent (κ := WithTop ℚ) = [] ↔ g.Consistent := by
  have hreported : g.inconsistent (κ := WithTop ℚ) = [] ↔
      ∀ v : EdgeView, v.edge ∈ g.edgeList → g.isTraversable v = true →
        Cost.less (g.heuristic v.target : WithTop ℚ) (Cost.sub (g.heuristic v.source) (price true v)) = false := by
    unfold inconsistent
    simp only [List.flatMap_eq_nil_iff, List.filterMap_eq_nil_iff]
    constructor
    · intro h v hedge hopen
      have hsides : v ∈ [EdgeView.mk v.edge false, EdgeView.mk v.edge true] := by
        obtain ⟨e, _ | _⟩ := v <;> simp
      have hnone := h v.edge hedge v hsides
      simpa [hopen, price] using hnone
    · intro h e he v hv
      have hedge : v.edge = e := by
        simp only [List.mem_cons, List.not_mem_nil, or_false] at hv
        rcases hv with rfl | rfl <;> rfl
      by_cases hopen : g.isTraversable v = true
      · have hless := h v (hedge ▸ he) hopen
        simpa [hopen, price] using hless
      · simp [hopen]
  rw [hreported]
  refine forall_congr' fun v => forall_congr' fun hedge => forall_congr' fun hopen => ?_
  obtain ⟨q, -, hq⟩ := hcosts v hedge hopen
  have hprice : price true v = q := hq
  rw [hprice]
  exact less_sub_eq_false_iff q _ _

/-! ## Walks -/

/-- Along a walk the estimate drops by no more than the walk costs. -/
theorem Consistent.le_of_walk (h : g.Consistent) (hwalk : Walk g true slot goal c) :
    (g.heuristic slot : WithTop ℚ) ≤ c + g.heuristic goal := by
  induction hwalk with
  | stay => rw [zero_add]
  | @step other c v _ hedge hsource hopen ih =>
      calc (g.heuristic slot : WithTop ℚ) ≤ c + g.heuristic other := ih
        _ ≤ c + (price true v + g.heuristic v.target) := by
            gcongr
            exact hsource ▸ h v hedge hopen
        _ = c + price true v + g.heuristic v.target := (add_assoc _ _ _).symm

/-! ## Nodes -/

/-- No node is reported where no estimate is above the distance that was found. -/
theorem inadmissible_eq_nil_iff {cost : Nat → WithTop ℚ} (hgoal : g.goal = some goal)
    (hfound : g.distancesTo goal = some (g.nodeList.map fun n => (n.id, cost n.slot))) :
    g.inadmissible (κ := WithTop ℚ) = some [] ↔ ∀ n ∈ g.nodeList, (g.heuristic n.slot : WithTop ℚ) ≤ cost n.slot := by
  have hpairs : g.nodeList.zip (g.nodeList.map fun n => (n.id, cost n.slot)) =
      g.nodeList.map fun n => (n, n.id, cost n.slot) := by
    simpa using List.zip_map' (f := id) (g := fun n : Node => (n.id, cost n.slot)) (l := g.nodeList)
  simp only [inadmissible, hgoal, hfound, Option.map_some, hpairs, List.filterMap_map, Option.some.injEq,
    List.filterMap_eq_nil_iff]
  refine forall_congr' fun n => forall_congr' fun _ => ?_
  rw [← not_lt, ← Cost.LawfulCost.less_iff]
  simp

/-- Without drops there is no overestimate, as long as the estimate is at most zero at the goal. -/
theorem Consistent.inadmissible_eq_nil (h : g.Consistent) (hg : g.Reachable) (hcosts : g.HasPositiveCosts)
    (hzero : ∀ goal, g.goal = some goal → (g.heuristic goal : WithTop ℚ) ≤ 0) :
    g.inadmissible (κ := WithTop ℚ) = some [] := by
  cases hgoal : g.goal with
  | none => simp [inadmissible, hgoal]
  | some goal =>
      obtain ⟨harena, hindexed⟩ := hg.arena_indexed
      obtain ⟨cost, hfound, -, hleast⟩ :=
        distances_eq harena hindexed true true (fun _ => climbs_price fun _ => hcosts) (harena.goal hgoal)
      refine (inadmissible_eq_nil_iff hgoal hfound).mpr fun n _ => ?_
      rcases hleast n.slot with ⟨hunreached, -⟩ | ⟨-, hway, -⟩
      · rw [hunreached]
        exact le_top
      · calc (g.heuristic n.slot : WithTop ℚ) ≤ cost n.slot + g.heuristic goal :=
              h.le_of_walk ((way_back_iff_walk harena hindexed).mp hway)
          _ ≤ cost n.slot + 0 := by
              gcongr
              exact hzero goal hgoal
          _ = cost n.slot := add_zero _

/-- Nothing is reported where all is right. -/
theorem isAdmissible_of_inadmissible_eq_nil (h : g.inadmissible (κ := WithTop ℚ) = some []) :
    g.isAdmissible (WithTop ℚ) = some true := by
  rw [isAdmissible, h]
  rfl

/-- **What the reports say of each other.** On a graph with a goal in which every edge that may be walked costs something,
let no edge be reported across which the estimate drops by more than the edge costs. If the estimate is at most zero at the
goal, then no node is reported whose estimate is more than it is away from the goal, whether estimates are given with the
nodes or counted on a grid. -/
theorem consistent_is_admissible (hg : g.Reachable) (hcosts : g.HasPositiveCosts) (hgoal : g.goal = some goal)
    (hconsistent : g.inconsistent (κ := WithTop ℚ) = []) (hzero : (g.heuristic goal : WithTop ℚ) ≤ 0) :
    g.inadmissible (κ := WithTop ℚ) = some [] ∧ g.isAdmissible (WithTop ℚ) = some true := by
  have hnone : g.inadmissible (κ := WithTop ℚ) = some [] := by
    refine ((inconsistent_eq_nil_iff hcosts).mp hconsistent).inadmissible_eq_nil hg hcosts fun goal' hgoal' => ?_
    obtain rfl : goal = goal' := Option.some.inj (hgoal.symm.trans hgoal')
    exact hzero
  exact ⟨hnone, isAdmissible_of_inadmissible_eq_nil hnone⟩

/-- The nodes of `shortcut` with estimates of their own, and the last one as the goal. -/
def estimated : Graph :=
  runAll [.setNode 0 [("h", .number (.float 1.5))] [], .setNode 1 [("h", .number (.float 0.5))] [],
    .setNode 2 [("h", .number (.float (-0.5)))] [], .setGoal (some 2)] shortcut

theorem reachable_estimated : estimated.Reachable := reachable_shortcut.runAll _

/-- The estimates drop by just what the cheapest way costs, to less than zero at the goal. -/
theorem consistent_is_admissible_sample :
    (estimated.Reachable ∧ estimated.HasPositiveCosts ∧ estimated.goal = some 2 ∧
        estimated.inconsistent (κ := WithTop ℚ) = [] ∧ (estimated.heuristic 2 : WithTop ℚ) ≤ 0) ∧
      estimated.inadmissible (κ := WithTop ℚ) = some [] ∧ estimated.isAdmissible (WithTop ℚ) = some true := by
  have hedges : estimated.edgeList = shortcut.edgeList := rfl
  have hcosts : estimated.HasPositiveCosts := fun _ hedge _ => costs_shortcut (hedges ▸ hedge)
  have hgoal : estimated.goal = some 2 := by decide +kernel
  have hconsistent : estimated.inconsistent (κ := WithTop ℚ) = [] := List.isEmpty_iff.mp (by decide +kernel)
  have hzero : (estimated.heuristic 2 : WithTop ℚ) ≤ 0 := by decide +kernel
  exact ⟨⟨reachable_estimated, hcosts, hgoal, hconsistent, hzero⟩,
    consistent_is_admissible reachable_estimated hcosts hgoal hconsistent hzero⟩

end SearchLab.Graph
