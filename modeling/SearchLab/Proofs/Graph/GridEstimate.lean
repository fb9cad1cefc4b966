import SearchLab.Proofs.Graph.Crossing
import SearchLab.Proofs.Graph.Estimate
import SearchLab.Proofs.Graph.Grid

/-!
# The estimate on a grid

On a grid the estimate is what a way to the goal would cost if nothing were in the way. A step along an edge that was laid
with the grid is a step across the open lattice at the same price, so a way on from its target makes a way on from its
source: the estimate drops across the edge by no more than the edge costs. Cells in the way only take such steps away. All
this needs that the estimate is that of the cheapest ways, so diagonals must cost what a straight step costs at least, or
be closed.

* `Laid` — the edges are those that were laid with the grid;
* `Laid.crossing` — each of them leads across the open lattice at its price;
* `Laid.consistent` — the estimate drops across none of them by more than it costs;
* `grid_estimate_is_admissible` — nothing is reported of such a grid.
-/

namespace SearchLab

namespace Diagonal

/-- What an estimate counts for a diagonal step. -/
def estimated (d : Diagonal) : WithTop ℚ := if d.isEnabled then Cost.ofFloat d.value else Cost.infinite

/-- There are no diagonal steps, or one costs no less than a straight step. -/
def Fair (d : Diagonal) : Prop := d.value < 0.0 ∨ ∃ q, Double.rational? d.value = some q ∧ 1 ≤ q

variable {d : Diagonal}

/-- Diagonal steps that are not closed have a price, and the estimate counts it. -/
theorem Fair.open_or_closed (h : d.Fair) :
    (d.value < 0.0 ∧ d.estimated = ⊤) ∨ ∃ q : ℚ, 1 ≤ q ∧ Double.rational? d.value = some q ∧ d.estimated = q := by
  unfold estimated isEnabled
  rcases h with hclosed | ⟨q, hq, hone⟩
  · rw [decide_eq_false (Double.not_zero_le_of_lt_zero hclosed)]
    exact .inl ⟨hclosed, rfl⟩
  · have henabled : 0.0 ≤ d.value := (Double.zero_of_rational? hq).2.1.mpr (zero_le_one.trans hone)
    rw [decide_eq_true henabled]
    exact .inr ⟨q, hone, hq, Cost.ofFloat_of_rational? hq⟩

theorem Fair.one_le (h : d.Fair) : 1 ≤ d.estimated := by
  rcases h.open_or_closed with ⟨-, hcounted⟩ | ⟨q, hone, -, hcounted⟩ <;> rw [hcounted]
  · exact le_top
  · exact_mod_cast hone

end Diagonal

namespace Graph

variable {spec : GridSpec} {d : Diagonal} {g : Graph} {slot : Nat}

/-! ## The edges of a grid -/

/-- An edge that was laid with a grid: a straight one has no price of its own, one across a corner that of diagonals. -/
def Template (d : Diagonal) : Contact → Edge → Prop
  | .orthogonal, e => e.weight = .int 1
  | .diagonal, e => weighed d e.data = e.data

/-- The edges are those that were laid with the grid. -/
def Laid (d : Diagonal) (g : Graph) : Prop :=
  ∀ e ∈ g.edgeList, ∃ c, g.contact? e.source e.target = some c ∧ Template d c e

/-- Edges that are completed are such edges. -/
theorem completable_template (d : Diagonal) : Completable (Template d) d where
  straight _ _ _ := rfl
  across _ _ _ := weighed_weighed d d []
  reweighed e _ := weighed_weighed d d e.data

theorem Lattice.laid (h : Lattice (Template d) spec g) : Laid d g := by
  intro e he
  obtain ⟨p, hp⟩ := mem_edgeList.mp he
  exact h.wired.fits hp

/-- Where data have the price of diagonals in them and do not close the edge, the edge has this price. -/
theorem weightOf_weighed {data : Bag} (hweighed : weighed d data = data) (hfair : d.Fair)
    (hopen : data.isTruthy "forbidden" = false) :
    ∃ q : ℚ, 1 ≤ q ∧ d.estimated = q ∧ (Cost.ofNumber (weightOf data) : WithTop ℚ) = q := by
  have hforbidden : data.get? "forbidden" = some (.bool (decide (d.value < 0.0))) := by
    rw [← hweighed, weighed, Bag.get?_set, if_pos rfl]
  have hweight : data.get? "w" = some (.ofFloat d.value) := by
    rw [← hweighed, weighed, Bag.get?_set, if_neg (by decide), Bag.get?_set, if_pos rfl]
  have hnot : ¬ d.value < 0.0 := by
    simpa [Bag.isTruthy, hforbidden, Json.isTruthy] using hopen
  rcases hfair.open_or_closed with ⟨hclosed, -⟩ | ⟨q, hone, hq, hcounted⟩
  · exact absurd hclosed hnot
  · obtain ⟨hnan, hinf⟩ := Double.isFinite_of_rational? hq
    have hzero : ¬ (d.value == 0.0) = true := fun h =>
      (zero_lt_one.trans_le hone).ne' ((Double.zero_of_rational? hq).1.mp h)
    have hnumber : data.number? "w" = some (.float d.value) := by
      rw [Bag.number?, hweight, Json.ofFloat, hnan, hinf]
      rfl
    have hprice : weightOf data = .float d.value := by
      rw [weightOf, hnumber]
      exact if_neg hzero
    refine ⟨q, hone, hcounted, ?_⟩
    rw [hprice]
    exact Cost.ofFloat_of_rational? hq

/-! ## Steps across the open lattice -/

section Touch

variable {diagonal : WithTop ℚ} {p q : Nat × Nat}

/-- From a cell to another one beside it, there is a straight step across the open lattice. -/
theorem crossing_of_side (htouch : touch? p q = some .orthogonal) :
    Crossing diagonal ((p.1 : ℤ) - q.1) ((p.2 : ℤ) - q.2) 1 := by
  rw [touch?_comm] at htouch
  obtain ⟨hstep, hcorner⟩ := touch?_eq_some_iff.mp htouch
  simp only [reduceCtorEq, false_iff] at hcorner
  simpa using (Crossing.stay : Crossing diagonal 0 0 0).straight hstep (by omega)

/-- From a cell to another one at its corner, there is a diagonal one. -/
theorem crossing_of_corner (htouch : touch? p q = some .diagonal) (hopen : diagonal ≠ ⊤) :
    Crossing diagonal ((p.1 : ℤ) - q.1) ((p.2 : ℤ) - q.2) diagonal := by
  rw [touch?_comm] at htouch
  obtain ⟨hstep, hcorner⟩ := touch?_eq_some_iff.mp htouch
  simpa using Crossing.stay.across hstep (hcorner.mp rfl) hopen

end Touch

/-- An edge that was laid with the grid and may be walked leads across the open lattice at its price. -/
theorem Laid.crossing (h : Laid d g) (hfair : d.Fair) {v : EdgeView} (hedge : v.edge ∈ g.edgeList)
    (hopen : g.isTraversable v = true) :
    ∃ (m n : Node) (q : ℚ), g.node? v.source = some m ∧ g.node? v.target = some n ∧ 0 < q ∧ price true v = q ∧
      Crossing d.estimated ((m.x : ℤ) - n.x) ((m.y : ℤ) - n.y) q := by
  simp only [isTraversable, Bool.and_eq_true, Option.any_eq_true, Bool.not_eq_true'] at hopen
  obtain ⟨⟨⟨⟨m, hm, -⟩, n, hn, -⟩, hforbidden⟩, -⟩ := hopen
  obtain ⟨c, hcontact, hplain⟩ := h v.edge hedge
  have htouch : touch? (m.x, m.y) (n.x, n.y) = some c := by
    rw [← contact?_of_places (g := g) (a := v.source) (b := v.target) (placeOf?_of_node? hm)
      (placeOf?_of_node? hn), ← hcontact]
    exact (contact?_of_joins g v.joins).symm
  cases c with
  | orthogonal =>
      have hprice : price true v = ((1 : ℚ) : WithTop ℚ) := by
        rw [price, if_pos rfl, hplain]
        rfl
      refine ⟨m, n, 1, hm, hn, one_pos, hprice, ?_⟩
      rw [WithTop.coe_one]
      exact crossing_of_side htouch
  | diagonal =>
      obtain ⟨q, hone, hcounted, hprice⟩ := weightOf_weighed hplain hfair hforbidden
      refine ⟨m, n, q, hm, hn, zero_lt_one.trans_le hone, hprice, ?_⟩
      rw [← hcounted]
      exact crossing_of_corner htouch (hcounted ▸ WithTop.coe_ne_top)

theorem Laid.hasPositiveCosts (h : Laid d g) (hfair : d.Fair) : g.HasPositiveCosts := by
  intro v hedge hopen
  obtain ⟨_, _, q, -, -, hpos, hprice, -⟩ := h.crossing hfair hedge hopen
  exact ⟨q, hpos, hprice⟩

/-! ## The estimate -/

/-- No node has an estimate of its own. -/
def Unestimated (g : Graph) : Prop := ∀ n ∈ g.nodeList, n.data.number? "h" = none

/-- The estimate counts a way across the open lattice. -/
theorem heuristic_eq_distance (hplain : g.Unestimated) (hgrid : g.grid = some spec) {n goal : Node}
    (hgoal : g.goal.bind g.node? = some goal) (hn : g.node? slot = some n) :
    (g.heuristic slot : WithTop ℚ) = latticeDistance (Cost.ofNat ((n.x : ℤ) - goal.x).natAbs)
      (Cost.ofNat ((n.y : ℤ) - goal.y).natAbs) spec.diagonal.estimated := by
  have happart : ∀ a b : Nat, apart a b = ((a : ℤ) - b).natAbs := by
    intro a b
    unfold apart
    omega
  simp only [heuristic, hn, hplain n (mem_nodeList.mpr ⟨slot, hn⟩), hgrid, hgoal, happart]
  rfl

/-- Without a goal there is nothing to be counted. -/
theorem heuristic_eq_zero (hplain : g.Unestimated) (hgoal : g.goal.bind g.node? = none) :
    (g.heuristic slot : WithTop ℚ) = 0 := by
  unfold heuristic
  cases hn : g.node? slot with
  | none => simp
  | some n => simp [hplain n (mem_nodeList.mpr ⟨slot, hn⟩), hgoal]

/-- At the goal the estimate is not above zero. -/
theorem heuristic_goal_le (hplain : g.Unestimated) (hgrid : g.grid = some spec) (hfair : spec.diagonal.Fair)
    {goal : Nat} (hgoal : g.goal = some goal) : (g.heuristic goal : WithTop ℚ) ≤ 0 := by
  cases hn : g.node? goal with
  | none => exact (heuristic_eq_zero hplain (by rw [hgoal]; exact hn)).le
  | some n =>
      rw [heuristic_eq_distance hplain hgrid (by rw [hgoal]; exact hn) hn, sub_self, sub_self]
      exact (isLeast_latticeDistance hfair.one_le 0 0).2 .stay

/-- **A step first**: a way on from the target of an edge that was laid makes one on from its source, so the estimate drops
across the edge by no more than the edge costs. -/
theorem Laid.consistent (h : Laid spec.diagonal g) (hplain : g.Unestimated) (hgrid : g.grid = some spec)
    (hfair : spec.diagonal.Fair) : g.Consistent := by
  intro v hedge hopen
  obtain ⟨m, n, q, hm, hn, hpos, hprice, hstep⟩ := h.crossing hfair hedge hopen
  rw [hprice]
  cases hgoal : g.goal.bind g.node? with
  | none =>
      rw [heuristic_eq_zero hplain hgoal, heuristic_eq_zero hplain hgoal, add_zero]
      exact_mod_cast hpos.le
  | some goal =>
      rw [heuristic_eq_distance hplain hgrid hgoal hm, heuristic_eq_distance hplain hgrid hgoal hn]
      have hon := (isLeast_latticeDistance hfair.one_le ((n.x : ℤ) - goal.x) ((n.y : ℤ) - goal.y)).1
      have hway := hstep.trans hon
      rw [sub_add_sub_cancel, sub_add_sub_cancel] at hway
      exact (isLeast_latticeDistance hfair.one_le _ _).2 hway

/-- **The estimate on a grid is right.** On a grid whose edges are those that were laid with it, where no node has an
estimate of its own, and where diagonals are closed or cost no less than a straight step, whichever cells are blocked and
wherever the goal is: no edge is reported across which the estimate drops by more than the edge costs, no node is reported
whose estimate is more than it is away from the goal, and the estimate is found to be admissible. -/
theorem grid_estimate_is_admissible (hg : g.Reachable) (hgrid : g.grid = some spec) (hedges : Laid spec.diagonal g)
    (hplain : g.Unestimated) (hfair : spec.diagonal.Fair) :
    g.inconsistent (κ := WithTop ℚ) = [] ∧ g.inadmissible (κ := WithTop ℚ) = some [] ∧
      g.isAdmissible (WithTop ℚ) = some true := by
  have hcosts := hedges.hasPositiveCosts hfair
  have hconsistent := hedges.consistent hplain hgrid hfair
  have hnone := hconsistent.inadmissible_eq_nil hg hcosts fun goal hgoal => heuristic_goal_le hplain hgrid hfair hgoal
  exact ⟨(inconsistent_eq_nil_iff hcosts).mpr hconsistent, hnone, isAdmissible_of_inadmissible_eq_nil hnone⟩

/-! ## Grids with cells in the way -/

/-- A grid with the edges that were laid with it, where no node has an estimate of its own. -/
structure Furnished (spec : GridSpec) (g : Graph) : Prop where
  lattice : Lattice (Template spec.diagonal) spec g
  unestimated : g.Unestimated

theorem furnished_ofGrid (width height : Nat) (d : Diagonal) :
    ∃ g, ofGrid width height d = .ok g ∧ Furnished ⟨width, height, d⟩ g := by
  obtain ⟨g, hmade, hlattice, hnew, -⟩ := lattice_ofGrid width height (completable_template d)
  refine ⟨g, hmade, hlattice, fun n hn => ?_⟩
  obtain ⟨s, hs⟩ := mem_nodeList.mp hn
  rw [(hnew hs).1]
  rfl

namespace Furnished

variable (h : Furnished spec g)
include h

/-- Cells may be blocked. -/
theorem block (slot : Nat) (style : Bag) :
    Furnished spec ((Operation.setNode slot [("traversable", .bool false)] style).run g) := by
  refine ⟨h.lattice.modifyNode slot fun _ => ⟨rfl, rfl, rfl, rfl⟩, fun n hn => ?_⟩
  obtain ⟨s, hs⟩ := mem_nodeList.mp hn
  have hchanged := node?_modifyNode g slot (fun n => { n with data := [("traversable", .bool false)], style }) s
  split at hchanged
  · obtain ⟨m, -, rfl⟩ := Option.map_eq_some_iff.mp (hchanged.symm.trans hs)
    rfl
  · exact h.unestimated n (mem_nodeList.mpr ⟨s, hchanged.symm.trans hs⟩)

/-- The goal may be anywhere. -/
theorem setGoal (goal : Option Nat) : Furnished spec ((Operation.setGoal goal).run g) := by
  have hrun : (Operation.setGoal goal).run g = (Graph.setGoal goal).after g := rfl
  rw [hrun]
  rcases after_setGoal g goal with hafter | ⟨hlive, hafter⟩
  · rwa [hafter]
  · rw [hafter]
    exact ⟨h.lattice.of_same_edges (.setGoal g goal hlive) rfl rfl rfl, h.unestimated⟩

end Furnished

/-- A grid of three by two cells: between a corner and the goal in the opposite one, a cell is blocked. -/
theorem grid_estimate_is_admissible_sample :
    ∃ g : Graph, (g.Reachable ∧ g.grid = some ⟨3, 2, .euclidean⟩ ∧ Laid .euclidean g ∧ g.Unestimated ∧
        Diagonal.euclidean.Fair) ∧
      g.goal.isSome = true ∧ (∃ n ∈ g.nodeList, n.isTraversable = false) ∧
      g.inconsistent (κ := WithTop ℚ) = [] ∧ g.inadmissible (κ := WithTop ℚ) = some [] ∧
      g.isAdmissible (WithTop ℚ) = some true := by
  obtain ⟨origin, hmade, hnew⟩ := furnished_ofGrid 3 2 .euclidean
  obtain ⟨slot, hslot⟩ := hnew.lattice.tiled.filled (x := 1) (y := 0) (by decide) (by decide)
  obtain ⟨goal, hgoal⟩ := hnew.lattice.tiled.filled (x := 2) (y := 1) (by decide) (by decide)
  obtain ⟨m, hm, -⟩ := Option.map_eq_some_iff.mp (hnew.lattice.tiled.slot?_cellId.mp hslot)
  obtain ⟨n, hn, -⟩ := Option.map_eq_some_iff.mp (hnew.lattice.tiled.slot?_cellId.mp hgoal)
  have hnode := node?_modifyNode origin slot fun n => { n with data := [("traversable", .bool false)], style := [] }
  have hlive : ((Operation.setNode slot [("traversable", .bool false)] []).run origin).Live goal := by
    rw [live_iff]
    by_cases hsame : slot = goal
    · exact ⟨_, (hnode goal).trans (by rw [if_pos hsame, hn]; rfl)⟩
    · exact ⟨_, (hnode goal).trans (by rw [if_neg hsame, hn])⟩
  have hset := Edit.after_ok (setGoal_of_live hlive)
  have hfurnished := (hnew.block slot []).setGoal (some goal)
  have hreachable : ((Operation.setGoal (some goal)).run
      ((Operation.setNode slot [("traversable", .bool false)] []).run origin)).Reachable :=
    ((Reachable.fresh (.grid hmade)).run _).run _
  have hfair : Diagonal.euclidean.Fair := .inr ⟨_, rfl, by decide +kernel⟩
  refine ⟨_, ⟨hreachable, hfurnished.lattice.grid, hfurnished.lattice.laid, hfurnished.unestimated, hfair⟩, ?_, ?_,
    grid_estimate_is_admissible hreachable hfurnished.lattice.grid hfurnished.lattice.laid hfurnished.unestimated hfair⟩
  · exact congrArg (fun g : Graph => g.goal.isSome) hset
  · refine ⟨{ m with data := [("traversable", .bool false)], style := [] }, mem_nodeList.mpr ⟨slot, ?_⟩, rfl⟩
    refine (congrArg (fun g : Graph => g.node? slot) hset).trans ((hnode slot).trans ?_)
    rw [if_pos rfl, hm]
    rfl

end Graph

end SearchLab
