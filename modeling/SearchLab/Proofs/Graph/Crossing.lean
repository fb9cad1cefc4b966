import Mathlib.Order.Bounds.Basic
import Mathlib.Tactic.Linarith
import Mathlib.Tactic.Ring
import SearchLab.Proofs.Graph.Lattice
import SearchLab.Proofs.Graph.Exact

/-!
# Ways across an open lattice

The estimate on a grid counts a way on a lattice that has no bounds and nothing in the way. Where such a way leads is
bounded by the numbers of its straight and of its diagonal steps, and what it costs is given by them. So there are three
regimes: diagonals that cost two straight steps or more are of no use; down to the cost of one straight step they are used
as long as they lead on in both directions; and below that it is cheapest to go in zigzag, diagonals all the way but for
one straight step where the parity asks for it.

* `Crossing` — the ways across the lattice, with what they cost;
* `Crossing.counts` — what the numbers of steps say of a way;
* `isLeast_of_two_le`, `isLeast_of_one_le`, `isLeast_of_lt_one` — the cheapest ways in the three regimes;
* `latticeDistance_is_least_iff` — where the distance that an estimate counts is that of the cheapest way.
-/

namespace SearchLab

open Graph (offsets apart)

/-- The ways across the open lattice: how far they lead to both sides, and what they cost. A straight step costs 1, and
there are no diagonal steps where these cost more than any number. -/
inductive Crossing (diagonal : WithTop ℚ) : ℤ → ℤ → WithTop ℚ → Prop
  | stay : Crossing diagonal 0 0 0
  | straight {x y dx dy : ℤ} {cost : WithTop ℚ} (h : Crossing diagonal x y cost) (hstep : (dx, dy) ∈ offsets)
      (hside : dx = 0 ∨ dy = 0) : Crossing diagonal (x + dx) (y + dy) (cost + 1)
  | across {x y dx dy : ℤ} {cost : WithTop ℚ} (h : Crossing diagonal x y cost) (hstep : (dx, dy) ∈ offsets)
      (hcorner : dx ≠ 0 ∧ dy ≠ 0) (hopen : diagonal ≠ ⊤) : Crossing diagonal (x + dx) (y + dy) (cost + diagonal)

namespace Crossing

variable {diagonal cost cost' : WithTop ℚ} {x y x' y' : ℤ} {q : ℚ}

/-- Two ways one after the other. -/
theorem trans (h : Crossing diagonal x y cost) (h' : Crossing diagonal x' y' cost') :
    Crossing diagonal (x + x') (y + y') (cost + cost') := by
  induction h' with
  | stay => simpa using h
  | straight _ hstep hside ih =>
      rw [← add_assoc, ← add_assoc, ← add_assoc]
      exact ih.straight hstep hside
  | across _ hstep hcorner hopen ih =>
      rw [← add_assoc, ← add_assoc, ← add_assoc]
      exact ih.across hstep hcorner hopen

/-- The steps of a way, counted by their kind: no step leads on by more than one to a side, a straight one leads on to one
side only, and it alone changes the parity of both distances together. -/
theorem counts (h : Crossing diagonal x y cost) :
    ∃ straight across : ℕ, cost = straight + across • diagonal ∧ (diagonal = ⊤ → across = 0) ∧
      x.natAbs ≤ straight + across ∧ y.natAbs ≤ straight + across ∧ x.natAbs + y.natAbs ≤ straight + 2 * across ∧
      (x.natAbs + y.natAbs) % 2 = straight % 2 := by
  -- Without absolute values, so that each step is linear.
  obtain ⟨straight, across, hcost, hnone, hx, hy, hsum, hdiff, hparity⟩ : ∃ straight across : ℕ,
      cost = straight + across • diagonal ∧ (diagonal = ⊤ → across = 0) ∧
      (-(straight + across : ℤ) ≤ x ∧ x ≤ straight + across) ∧ (-(straight + across : ℤ) ≤ y ∧ y ≤ straight + across) ∧
      (-(straight + 2 * across : ℤ) ≤ x + y ∧ x + y ≤ straight + 2 * across) ∧
      (-(straight + 2 * across : ℤ) ≤ x - y ∧ x - y ≤ straight + 2 * across) ∧ (x + y) % 2 = straight % 2 := by
    induction h with
    | stay => exact ⟨0, 0, by simp⟩
    | straight _ hstep hside ih =>
        obtain ⟨straight, across, hcost, hnone, hx, hy, hsum, hdiff, hparity⟩ := ih
        obtain ⟨hdx, hdy, hmoves⟩ := Graph.mem_offsets.mp hstep
        refine ⟨straight + 1, across, ?_, hnone, by omega, by omega, by omega, by omega, by omega⟩
        rw [hcost, Nat.cast_add, Nat.cast_one, add_right_comm]
    | across _ hstep hcorner hopen ih =>
        obtain ⟨straight, across, hcost, _, hx, hy, hsum, hdiff, hparity⟩ := ih
        obtain ⟨hdx, hdy, -⟩ := Graph.mem_offsets.mp hstep
        refine ⟨straight, across + 1, ?_, fun htop => absurd htop hopen, by omega, by omega, by omega, by omega, by omega⟩
        rw [hcost, succ_nsmul, add_assoc]
  exact ⟨straight, across, hcost, hnone, by omega, by omega, by omega, by omega⟩

/-- A step to one side or to the other. -/
def IsUnit (d : ℤ) : Prop := d = 1 ∨ d = -1

/-- A step back towards the origin. -/
theorem exists_back {z : ℤ} (hz : z ≠ 0) : ∃ d : ℤ, IsUnit d ∧ (z - d).natAbs + 1 = z.natAbs := by
  unfold IsUnit
  exact ⟨if 0 < z then 1 else -1, by split <;> omega⟩

/-- A step back towards the origin, or away from it as long as there are enough steps to get back. -/
theorem exists_unit {z : ℤ} {n : ℕ} (hz : z.natAbs ≤ n + 1) (hz' : z.natAbs % 2 = (n + 1) % 2) :
    ∃ d : ℤ, IsUnit d ∧ (z - d).natAbs ≤ n ∧ (z - d).natAbs % 2 = n % 2 := by
  unfold IsUnit
  exact ⟨if 0 < z then 1 else -1, by split <;> omega⟩

/-- A place in between, at a distance from the origin that is no further. -/
theorem exists_between {z : ℤ} {n : ℕ} (hn : n ≤ z.natAbs) :
    ∃ u : ℤ, u.natAbs = n ∧ (z - u).natAbs = z.natAbs - n :=
  ⟨if 0 < z then n else -n, by split <;> omega⟩

/-- The steps to the sides, and those across the corners. -/
theorem IsUnit.mem_offsets {d e : ℤ} (hd : IsUnit d) (he : IsUnit e) :
    (d, 0) ∈ offsets ∧ (0, d) ∈ offsets ∧ (d, e) ∈ offsets ∧ d ≠ 0 ∧ e ≠ 0 := by
  rcases hd with rfl | rfl <;> rcases he with rfl | rfl <;> decide

/-- Straight steps lead anywhere. -/
theorem straights (diagonal : WithTop ℚ) (x y : ℤ) : Crossing diagonal x y (x.natAbs + y.natAbs : ℕ) := by
  generalize hn : x.natAbs + y.natAbs = n
  induction n generalizing x y with
  | zero =>
      obtain rfl : x = 0 := by omega
      obtain rfl : y = 0 := by omega
      simpa using stay
  | succ n ih =>
      obtain ⟨dx, dy, hstep, hside, hback⟩ : ∃ dx dy : ℤ, (dx, dy) ∈ offsets ∧ (dx = 0 ∨ dy = 0) ∧
          (x - dx).natAbs + (y - dy).natAbs = n := by
        by_cases hx : x = 0
        · obtain ⟨d, hd, hback⟩ := exists_back (z := y) (by omega)
          exact ⟨0, d, (hd.mem_offsets hd).2.1, .inl rfl, by rw [sub_zero]; omega⟩
        · obtain ⟨d, hd, hback⟩ := exists_back hx
          exact ⟨d, 0, (hd.mem_offsets hd).1, .inr rfl, by rw [sub_zero]; omega⟩
      have hway := (ih (x - dx) (y - dy) hback).straight hstep hside
      rwa [sub_add_cancel, sub_add_cancel, ← Nat.cast_succ] at hway

/-- So many diagonal steps lead to all places that are no further away to either side and have the same parity. -/
theorem diagonals (hopen : diagonal ≠ ⊤) (n : ℕ) {x y : ℤ} (hx : x.natAbs ≤ n) (hy : y.natAbs ≤ n)
    (hx' : x.natAbs % 2 = n % 2) (hy' : y.natAbs % 2 = n % 2) : Crossing diagonal x y (n • diagonal) := by
  induction n generalizing x y with
  | zero =>
      obtain rfl : x = 0 := by omega
      obtain rfl : y = 0 := by omega
      simpa using stay
  | succ n ih =>
      obtain ⟨dx, hdx, hxback, hxparity⟩ := exists_unit hx hx'
      obtain ⟨dy, hdy, hyback, hyparity⟩ := exists_unit hy hy'
      obtain ⟨-, -, hstep, hcorner⟩ := hdx.mem_offsets hdy
      have hway := (ih hxback hyback hxparity hyparity).across hstep hcorner hopen
      rwa [sub_add_cancel, sub_add_cancel, ← succ_nsmul] at hway

/-- Diagonal steps to some place on the way, and straight ones on from there. -/
theorem bent (n : ℕ) {u v : ℕ} (hu : u ≤ n) (hv : v ≤ n) (hu' : u % 2 = n % 2) (hv' : v % 2 = n % 2)
    (hx : u ≤ x.natAbs) (hy : v ≤ y.natAbs) :
    Crossing q x y (((x.natAbs - u + (y.natAbs - v) : ℕ) + n * q : ℚ) : WithTop ℚ) := by
  obtain ⟨xs, rfl, hxs⟩ := exists_between hx
  obtain ⟨ys, rfl, hys⟩ := exists_between hy
  have hway := (diagonals WithTop.coe_ne_top n hu hv hu' hv').trans (straights (q : WithTop ℚ) (x - xs) (y - ys))
  have hcost : n • (q : WithTop ℚ) + ((x - xs).natAbs + (y - ys).natAbs : ℕ) =
      (((x.natAbs - xs.natAbs + (y.natAbs - ys.natAbs) : ℕ) + n * q : ℚ) : WithTop ℚ) := by
    rw [hxs, hys, add_comm, ← nsmul_eq_mul, WithTop.coe_add, WithTop.coe_nsmul]
    rfl
  rwa [add_sub_cancel, add_sub_cancel, hcost] at hway

/-- Diagonal steps to the same distance on both sides, the lesser one, and straight ones on from there. -/
theorem level (q : ℚ) (x y : ℤ) :
    Crossing q x y ((apart x.natAbs y.natAbs + min x.natAbs y.natAbs * q : ℚ) : WithTop ℚ) := by
  have hway := bent (q := q) (min x.natAbs y.natAbs) le_rfl le_rfl rfl rfl (Nat.min_le_left _ _) (Nat.min_le_right _ _)
  have hstraight : x.natAbs - min x.natAbs y.natAbs + (y.natAbs - min x.natAbs y.natAbs) = apart x.natAbs y.natAbs := by
    unfold apart
    omega
  rw [hstraight] at hway
  exact_mod_cast hway

end Crossing

/-! ## The cheapest ways -/

section Cheapest

variable {c : WithTop ℚ} {q : ℚ}

/-- Where a diagonal step costs two straight ones or more, straight steps are enough. -/
theorem isLeast_of_two_le (hc : 2 ≤ c) (x y : ℤ) :
    IsLeast {cost | Crossing c x y cost} (x.natAbs + y.natAbs : ℕ) := by
  refine ⟨Crossing.straights c x y, fun cost hway => ?_⟩
  obtain ⟨straight, across, rfl, -, -, -, hboth, -⟩ := Crossing.counts hway
  calc ((x.natAbs + y.natAbs : ℕ) : WithTop ℚ) ≤ (straight + 2 * across : ℕ) := by exact_mod_cast hboth
    _ = straight + across • ((2 : ℚ) : WithTop ℚ) := by
        rw [← WithTop.coe_nsmul, nsmul_eq_mul, mul_comm]
        norm_cast
    _ ≤ straight + across • c := by
        gcongr
        exact hc

/-- What a way costs in which diagonals have a cost. -/
theorem Crossing.cost_eq {x y : ℤ} {cost : WithTop ℚ} (h : Crossing q x y cost) :
    ∃ straight across : ℕ, cost = ((straight + across * q : ℚ) : WithTop ℚ) ∧
      x.natAbs ≤ straight + across ∧ y.natAbs ≤ straight + across ∧ x.natAbs + y.natAbs ≤ straight + 2 * across ∧
      (x.natAbs + y.natAbs) % 2 = straight % 2 := by
  obtain ⟨straight, across, rfl, -, hcounts⟩ := h.counts
  exact ⟨straight, across, by rw [← nsmul_eq_mul]; push_cast; rfl, hcounts⟩

/-- Where it costs less than that, but no less than a straight one, there are as many diagonal steps as lead on to both
sides. -/
theorem isLeast_of_one_le (hlow : 1 ≤ q) (hhigh : q ≤ 2) (x y : ℤ) :
    IsLeast {cost | Crossing q x y cost}
      ((apart x.natAbs y.natAbs + min x.natAbs y.natAbs * q : ℚ) : WithTop ℚ) := by
  refine ⟨Crossing.level q x y, fun cost hway => ?_⟩
  obtain ⟨straight, across, rfl, hx, hy, hboth, -⟩ := hway.cost_eq
  generalize x.natAbs = m at hx hboth ⊢
  generalize y.natAbs = n at hy hboth ⊢
  have hone : (apart m n + min m n : ℚ) ≤ straight + across := by
    have hsteps : apart m n + min m n ≤ straight + across := by
      unfold apart
      omega
    exact_mod_cast hsteps
  have htwo : (apart m n + 2 * min m n : ℚ) ≤ straight + 2 * across := by
    have hsteps : apart m n + 2 * min m n ≤ straight + 2 * across := by
      unfold apart
      omega
    exact_mod_cast hsteps
  -- The cost lies between the two counts as it does between one and two.
  have hfirst := mul_le_mul_of_nonneg_left hone (sub_nonneg.mpr hhigh)
  have hsecond := mul_le_mul_of_nonneg_left htwo (sub_nonneg.mpr hlow)
  rw [WithTop.coe_le_coe]
  linarith

/-- Where it costs less than a straight step, it is cheapest to go in zigzag: a straight step is there for the parity
only. -/
theorem isLeast_of_lt_one (hlow : 0 ≤ q) (hhigh : q ≤ 1) (x y : ℤ) {odd : ℕ} (hodd : (x.natAbs + y.natAbs) % 2 = odd) :
    IsLeast {cost | Crossing q x y cost} ((odd + (max x.natAbs y.natAbs - odd : ℕ) * q : ℚ) : WithTop ℚ) := by
  constructor
  · -- Where the parity asks for it, one straight step along the greater distance; the rest in zigzag.
    have hway : ∃ u v : ℕ, u ≤ max x.natAbs y.natAbs - odd ∧ v ≤ max x.natAbs y.natAbs - odd ∧
        u % 2 = (max x.natAbs y.natAbs - odd) % 2 ∧ v % 2 = (max x.natAbs y.natAbs - odd) % 2 ∧ u ≤ x.natAbs ∧
        v ≤ y.natAbs ∧ x.natAbs - u + (y.natAbs - v) = odd := by
      generalize x.natAbs = m at hodd ⊢
      generalize y.natAbs = n at hodd ⊢
      rcases le_total n m with hle | hle
      · exact ⟨m - odd, n, by omega⟩
      · exact ⟨m, n - odd, by omega⟩
    obtain ⟨u, v, hu, hv, hu', hv', hx, hy, hstraight⟩ := hway
    have hway := Crossing.bent (q := q) _ hu hv hu' hv' hx hy
    rwa [hstraight] at hway
  · intro cost hway
    obtain ⟨straight, across, rfl, hx, hy, -, hparity⟩ := hway.cost_eq
    generalize x.natAbs = m at hx hparity hodd ⊢
    generalize y.natAbs = n at hy hparity hodd ⊢
    have hsteps : (odd + (max m n - odd : ℕ) : ℚ) ≤ straight + across := by
      have hsteps : odd + (max m n - odd) ≤ straight + across := by omega
      exact_mod_cast hsteps
    have hone : (odd : ℚ) ≤ straight := by
      have hone : odd ≤ straight := by omega
      exact_mod_cast hone
    -- Each step costs as much as a diagonal one at least, and a straight one so much more.
    have hfirst := mul_le_mul_of_nonneg_left hsteps hlow
    have hsecond := mul_le_mul_of_nonneg_left hone (sub_nonneg.mpr hhigh)
    rw [WithTop.coe_le_coe]
    linarith

end Cheapest

/-! ## The distance that an estimate counts -/

section Distance

variable {c : WithTop ℚ} {q : ℚ}

/-- The distance is that of straight steps where these are enough. -/
theorem latticeDistance_of_two_le (hc : 2 ≤ c) (dx dy : ℕ) :
    latticeDistance (Cost.ofNat dx) (Cost.ofNat dy) c = (dx + dy : ℕ) := by
  have hmost : Cost.atMost (Cost.ofNat 2) c = true := decide_eq_true (by simpa using hc)
  rw [latticeDistance, if_pos hmost, Cost.ofNat_eq, Cost.ofNat_eq, Nat.cast_add]
  rfl

/-- The distance is that of all diagonal steps that lead on to both sides where they are cheaper. -/
theorem latticeDistance_of_lt_two (hq : q < 2) (dx dy : ℕ) :
    latticeDistance (Cost.ofNat dx) (Cost.ofNat dy) (q : WithTop ℚ) = ((apart dx dy + min dx dy * q : ℚ) : WithTop ℚ) := by
  have hmost : ¬ Cost.atMost (Cost.ofNat 2) (q : WithTop ℚ) = true := by
    have hnot : ¬ ((2 : ℚ) : WithTop ℚ) ≤ q := by rw [WithTop.coe_le_coe]; exact not_le.mpr hq
    simpa [Cost.atMost] using hnot
  have hcast : ∀ n : ℕ, (Cost.ofNat n : WithTop ℚ) = ((n : ℚ) : WithTop ℚ) := Cost.ofNat_eq
  have hboth : Cost.min (Cost.ofNat dx) (Cost.ofNat dy) = (((min dx dy : ℕ) : ℚ) : WithTop ℚ) := by
    rw [hcast, hcast, Nat.cast_min, WithTop.coe_min]
    rfl
  have hvalue : latticeDistance (Cost.ofNat dx) (Cost.ofNat dy) (q : WithTop ℚ) =
      (((dx - (min dx dy : ℕ)) + (dy - (min dx dy : ℕ)) + (min dx dy : ℕ) * q : ℚ) : WithTop ℚ) := by
    rw [latticeDistance, if_neg hmost, hboth, hcast, hcast]
    rfl
  rw [hvalue, WithTop.coe_inj]
  unfold apart
  rcases le_total dx dy with hle | hle
  · simp [hle]
  · simp [hle]

/-- Where a diagonal step costs a straight one or more, the distance is that of the cheapest ways, to all sides. -/
theorem isLeast_latticeDistance (hc : 1 ≤ c) (x y : ℤ) :
    IsLeast {cost | Crossing c x y cost} (latticeDistance (Cost.ofNat x.natAbs) (Cost.ofNat y.natAbs) c) := by
  by_cases htwo : 2 ≤ c
  · rw [latticeDistance_of_two_le htwo]
    exact isLeast_of_two_le htwo x y
  · obtain ⟨q, rfl⟩ := WithTop.ne_top_iff_exists.mp (not_le.mp htwo).ne_top
    have hlow : 1 ≤ q := by exact_mod_cast hc
    have hhigh : q < 2 := WithTop.coe_lt_coe.mp (not_le.mp htwo)
    rw [latticeDistance_of_lt_two hhigh]
    exact isLeast_of_one_le hlow hhigh.le x y

/-- Where it costs less, what the distance counts too much: so much less for each step that could be diagonal and is
counted as a straight one. -/
theorem exists_least (hlow : 0 ≤ q) (hhigh : q ≤ 1) (dx dy : ℕ) :
    ∃ least : ℚ, IsLeast {cost | Crossing q dx dy cost} (least : WithTop ℚ) ∧
      latticeDistance (Cost.ofNat dx) (Cost.ofNat dy) (q : WithTop ℚ) =
        ((least + (apart dx dy - apart dx dy % 2 : ℕ) * (1 - q) : ℚ) : WithTop ℚ) := by
  have hodd : ((dx : ℤ).natAbs + (dy : ℤ).natAbs) % 2 = apart dx dy % 2 := by
    unfold apart
    omega
  refine ⟨_, isLeast_of_lt_one hlow hhigh dx dy hodd, ?_⟩
  have hsteps : max dx dy - apart dx dy % 2 = min dx dy + (apart dx dy - apart dx dy % 2) := by
    unfold apart
    omega
  have happart : (apart dx dy : ℚ) = (apart dx dy % 2 : ℕ) + (apart dx dy - apart dx dy % 2 : ℕ) := by
    have hsum : apart dx dy = apart dx dy % 2 + (apart dx dy - apart dx dy % 2) := by omega
    exact_mod_cast hsum
  rw [latticeDistance_of_lt_two (by linarith), Int.natAbs_natCast, Int.natAbs_natCast, hsteps, WithTop.coe_inj, happart]
  push_cast
  ring

/-- **The distance on the lattice.** Whatever a diagonal step costs, as long as that is not below zero, the distance that
an estimate counts is the cost of a way across the open lattice. It is the least cost of all ways exactly if a diagonal
step costs no less than a straight one, or the way leads about as far to one side as to the other, give or take a step;
else it is too much, by what a straight step costs more than a diagonal one, for each step that could be either. -/
theorem latticeDistance_is_least_iff (dx dy : ℕ) {c : WithTop ℚ} (hc : 0 ≤ c) :
    Crossing c dx dy (latticeDistance (Cost.ofNat dx) (Cost.ofNat dy) c) ∧
      (IsLeast {cost | Crossing c dx dy cost} (latticeDistance (Cost.ofNat dx) (Cost.ofNat dy) c) ↔
        1 ≤ c ∨ apart dx dy ≤ 1) ∧
      ∀ q : ℚ, c = q → q ≤ 1 → ∃ least : ℚ, IsLeast {cost | Crossing c dx dy cost} (least : WithTop ℚ) ∧
        latticeDistance (Cost.ofNat dx) (Cost.ofNat dy) c =
          ((least + (apart dx dy - apart dx dy % 2 : ℕ) * (1 - q) : ℚ) : WithTop ℚ) := by
  by_cases hone : 1 ≤ c
  · have hleast := isLeast_latticeDistance hone dx dy
    rw [Int.natAbs_natCast, Int.natAbs_natCast] at hleast
    refine ⟨hleast.1, iff_of_true hleast (.inl hone), ?_⟩
    rintro q rfl hq
    exact exists_least (by exact_mod_cast hc) hq dx dy
  · obtain ⟨q, rfl⟩ := WithTop.ne_top_iff_exists.mp (not_le.mp hone).ne_top
    have hlow : 0 ≤ q := by exact_mod_cast hc
    have hhigh : q < 1 := WithTop.coe_lt_coe.mp (not_le.mp hone)
    obtain ⟨least, hleast, hcounted⟩ := exists_least hlow hhigh.le dx dy
    refine ⟨?_, ?_, ?_⟩
    · rw [latticeDistance_of_lt_two (by linarith)]
      exact Crossing.level q dx dy
    · rw [or_iff_right hone, hcounted]
      constructor
      · intro hleast'
        have hsame := WithTop.coe_inj.mp (hleast'.unique hleast)
        have hnone : ((apart dx dy - apart dx dy % 2 : ℕ) : ℚ) = 0 := by
          have hproduct : ((apart dx dy - apart dx dy % 2 : ℕ) : ℚ) * (1 - q) = 0 := by linarith
          exact (mul_eq_zero.mp hproduct).resolve_right (by linarith)
        have hnone' : apart dx dy - apart dx dy % 2 = 0 := by exact_mod_cast hnone
        omega
      · intro hnear
        have hnone : apart dx dy - apart dx dy % 2 = 0 := by omega
        rwa [hnone, Nat.cast_zero, zero_mul, add_zero]
    · rintro q' hq' hq
      obtain rfl := WithTop.coe_inj.mp hq'
      exact exists_least hlow hq dx dy

/-- Three columns and one row away: with diagonals at one and a half the distance is that of the cheapest way, and at one
half it is not. -/
theorem latticeDistance_is_least_iff_sample :
    (0 ≤ ((3 / 2 : ℚ) : WithTop ℚ) ∧ IsLeast {cost | Crossing ((3 / 2 : ℚ) : WithTop ℚ) (3 : ℕ) (1 : ℕ) cost}
        (latticeDistance (Cost.ofNat 3) (Cost.ofNat 1) ((3 / 2 : ℚ) : WithTop ℚ))) ∧
      (0 ≤ ((1 / 2 : ℚ) : WithTop ℚ) ∧ ¬ IsLeast {cost | Crossing ((1 / 2 : ℚ) : WithTop ℚ) (3 : ℕ) (1 : ℕ) cost}
        (latticeDistance (Cost.ofNat 3) (Cost.ofNat 1) ((1 / 2 : ℚ) : WithTop ℚ))) := by
  have hdear : 0 ≤ ((3 / 2 : ℚ) : WithTop ℚ) := by decide +kernel
  have hcheap : 0 ≤ ((1 / 2 : ℚ) : WithTop ℚ) := by decide +kernel
  refine ⟨⟨hdear, (latticeDistance_is_least_iff 3 1 hdear).2.1.mpr (.inl (by decide +kernel))⟩, hcheap, fun hleast => ?_⟩
  rcases (latticeDistance_is_least_iff 3 1 hcheap).2.1.mp hleast with hone | hnear
  · exact absurd hone (by decide +kernel)
  · exact absurd hnear (by decide)

/-- **Zigzag is cheaper**: three columns and one row away, with diagonals at one half, three of them lead there for less
than the distance that is counted. -/
theorem zigzag_is_cheaper :
    0 ≤ ((1 / 2 : ℚ) : WithTop ℚ) ∧ Crossing ((1 / 2 : ℚ) : WithTop ℚ) (3 : ℕ) (1 : ℕ) ((3 / 2 : ℚ) : WithTop ℚ) ∧
      ((3 / 2 : ℚ) : WithTop ℚ) < latticeDistance (Cost.ofNat 3) (Cost.ofNat 1) ((1 / 2 : ℚ) : WithTop ℚ) := by
  refine ⟨by decide +kernel, ?_, by decide +kernel⟩
  have hway : Crossing ((1 / 2 : ℚ) : WithTop ℚ) 3 1 (3 • ((1 / 2 : ℚ) : WithTop ℚ)) :=
    Crossing.diagonals WithTop.coe_ne_top 3 (by decide) (by decide) (by decide) (by decide)
  have hcost : 3 • ((1 / 2 : ℚ) : WithTop ℚ) = ((3 / 2 : ℚ) : WithTop ℚ) := by decide +kernel
  rwa [hcost] at hway

end Distance

end SearchLab
