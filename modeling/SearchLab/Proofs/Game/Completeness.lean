import Mathlib.Data.Set.Card
import Mathlib.Order.WellFounded
import SearchLab.Proofs.Game.Deepening

/-!
# Iterative deepening is complete

A search that is done has expanded every position at which the game goes on and to which lines of play lead from its
root. Where those are finitely many and no line leads back, it comes to be done: each step makes one of three numbers
smaller, taken in this order, and leaves those before it alone. They are the positions of the game that are not expanded
yet, the levels that a search can still go down, and the nodes that are left in the present pass.

* `closed_of_settled` — what a search that is done leaves behind;
* `lower_of_onward` — a step comes closer to the end;
* `deepening_is_complete` — both of this, for any engine of the game and any budgets.
-/

namespace SearchLab.Game

open Relation (ReflTransGen TransGen)
open SearchLab.Game.Tree (Grows)

variable {π υ : Type} [Position π υ] {rules : Rules π} {G : Set π} {origin : String}

namespace Deepening

/-! ## A search that is done -/

/-- A set of slots out of which no line of play leads: where the game goes on at one of them, it is expanded, and each
branch leads to one of them. -/
def Closed (rules : Rules π) (t : Tree π υ) (S : Set Nat) : Prop :=
  ∀ slot ∈ S, ∃ e, t.entry? slot = some e ∧ (Position.isTerminal e.position = false →
    t.isExpanded slot = true ∧ ∀ bs, rules.branches e.position = .ok bs →
      ∀ b ∈ bs, ∃ c ∈ S, t.graph.slot? (Position.id b.2) = some c)

/-- Where positions with the same id are the same position, all positions that can be reached from one in a closed set
are there. -/
theorem Closed.reaches {t : Tree π υ} {S : Set Nat} (h : Closed rules t S) (hstep : t.InStep) (hobeys : t.Obeys rules G)
    (hwithin : rules.Within G) (hrules : ∀ p ∈ G, ∃ bs, rules.branches p = .ok bs) (hids : rules.Identified G) {p q : π}
    (hp : p ∈ G) {root : Nat} (hroot : root ∈ S) (hposition : t.position? root = some p) (hq : rules.Reaches p q) :
    ∃ slot ∈ S, t.graph.slot? (Position.id q) = some slot := by
  induction hq with
  | start =>
      obtain ⟨e, he, rfl⟩ := Option.map_eq_some_iff.mp hposition
      exact ⟨root, hroot, hstep.slot?_id he⟩
  | @move q branches branch hq hopen hbranches hbranch ih =>
      obtain ⟨slot, hslot, hfound⟩ := ih
      have hqG := hwithin.reaches hp hq
      obtain ⟨e, he, hid⟩ := (hstep.lookup _ _).mp hfound
      obtain ⟨e', he', hclosed⟩ := h slot hslot
      obtain rfl := Option.some.inj (he.symm.trans he')
      have hG := hobeys.position he
      obtain ⟨bs, hbs⟩ := hrules _ hG
      obtain ⟨b', hb', hsame⟩ := hids.branches hqG hG hid.symm hbranches hbs branch hbranch
      obtain ⟨c, hc, hfound'⟩ := (hclosed ((hids.isTerminal hG hqG hid).trans hopen)).2 bs hbs b' hb'
      exact ⟨c, hc, hsame ▸ hfound'⟩

/-! ## Ranks -/

/-- How many ids lie below an id. -/
noncomputable def rank (rules : Rules π) (G : Set π) (id : String) : Nat := {b | TransGen (rules.Leads G) id b}.ncard

/-- In a finite game without cycles each move lowers the rank. -/
theorem rank_lt (hfinite : {id | ReflTransGen (rules.Leads G) origin id}.Finite)
    (hacyclic : ∀ id, ReflTransGen (rules.Leads G) origin id → ¬ TransGen (rules.Leads G) id id) {a b : String}
    (ha : ReflTransGen (rules.Leads G) origin a) (hab : rules.Leads G a b) : rank rules G b < rank rules G a := by
  refine Set.ncard_lt_ncard ⟨fun c hc => TransGen.head hab hc, ?_⟩ (hfinite.subset fun c hc => ha.trans hc.to_reflTransGen)
  intro hsubset
  exact hacyclic b (ha.tail hab) (hsubset (TransGen.single hab))

/-- In a finite game without cycles, limits above the rank of the root show no more than those before them. -/
theorem flat_of_rank (hfinite : {id | ReflTransGen (rules.Leads G) origin id}.Finite)
    (hacyclic : ∀ id, ReflTransGen (rules.Leads G) origin id → ¬ TransGen (rules.Leads G) id id)
    {s : Deepening × Engine π υ} (h : Searching rules G origin s) {bound : Nat}
    (hbound : rank rules G (s.2.tree.positionId s.1.root) + 2 ≤ bound) : Flat s.2.tree bound s.1.root := by
  intro limit hlimit
  have hlower : ∀ {a children}, Met rules G origin s.2.tree a → isInner s.2.tree a = true →
      s.2.tree.children? a = some children → ∀ c ∈ children, Met rules G origin s.2.tree c ∧
        rank rules G (s.2.tree.positionId c) < rank rules G (s.2.tree.positionId a) := by
    intro a children ha hinner hkept c hc
    refine ⟨ha.child h.inStep h.obeys hinner hkept hc, ?_⟩
    exact rank_lt hfinite hacyclic ha.leads (leads_child h.inStep h.obeys hinner hkept hc).2
  have hbelow : rank rules G (s.2.tree.positionId s.1.root) < limit - 1 := by omega
  have hvisits := visits_le_of_rank hlower h.underway.root hbelow
  rwa [Nat.sub_add_cancel (by omega)] at hvisits

/-! ## Coming to an end -/

/-- The ids of the game that no node of the tree was expanded for. -/
def unexpanded (rules : Rules π) (G : Set π) (origin : String) (t : Tree π υ) : Set String :=
  {id | ReflTransGen (rules.Leads G) origin id ∧
    ∀ slot, (t.entry? slot).isSome = true → t.positionId slot = id → t.children? slot = none}

/-- What is left to be done: ids to be expanded, levels to go down, and nodes to be met in the present pass. -/
noncomputable def left (rules : Rules π) (G : Set π) (origin : String) (bound : Nat) (s : Deepening × Engine π υ) :
    Nat × Nat × Nat :=
  ((unexpanded rules G origin s.2.tree).ncard, bound - s.1.limit,
    tally 1 1 s.2.tree s.1.limit s.1.root - s.1.found)

/-- Fewer of what comes first, or else of what comes next. -/
abbrev Fewer : Nat × Nat × Nat → Nat × Nat × Nat → Prop := Prod.Lex (· < ·) (Prod.Lex (· < ·) (· < ·))

theorem slot_eq_of_positionId {t : Tree π υ} (hstep : t.InStep) {a b : Nat} (ha : (t.entry? a).isSome = true)
    (hb : (t.entry? b).isSome = true) (hid : t.positionId a = t.positionId b) : a = b := by
  obtain ⟨e, he⟩ := Option.isSome_iff_exists.mp ha
  obtain ⟨e', he'⟩ := Option.isSome_iff_exists.mp hb
  rw [Tree.positionId_eq he, Tree.positionId_eq he'] at hid
  have hfound := hstep.slot?_id he
  rw [hid, hstep.slot?_id he'] at hfound
  exact (Option.some.inj hfound).symm

/-- A node that was expanded leaves one id fewer. -/
theorem unexpanded_lt {t t' : Tree π υ} (hstep : t.InStep) (hgrows : Grows t t')
    (hfinite : {id | ReflTransGen (rules.Leads G) origin id}.Finite) {slot : Nat} (hmet : Met rules G origin t slot)
    (hnone : t.children? slot = none) (hkept : (t'.children? slot).isSome = true) :
    (unexpanded rules G origin t').ncard < (unexpanded rules G origin t).ncard := by
  refine Set.ncard_lt_ncard ⟨?_, ?_⟩ (hfinite.subset fun id hid => hid.1)
  · rintro id ⟨hid, hall⟩
    refine ⟨hid, fun other hother hsame => ?_⟩
    cases hold : t.children? other with
    | none => rfl
    | some children =>
        obtain ⟨e, he⟩ := Option.isSome_iff_exists.mp hother
        obtain ⟨e', he', _⟩ := hgrows.stays he
        have hnone' := hall other (by rw [he', Option.isSome_some]) ((positionId_of_grows hgrows hother).trans hsame)
        rw [children?_of_grows hgrows hold] at hnone'
        cases hnone'
  · intro hsubset
    have hid : t.positionId slot ∈ unexpanded rules G origin t := by
      refine ⟨hmet.leads, fun other hother hsame => ?_⟩
      rw [slot_eq_of_positionId hstep hother hmet.live hsame]
      exact hnone
    have hstill := (hsubset hid).2 slot (hmet.grows hgrows).live (positionId_of_grows hgrows hmet.live)
    rw [hstill] at hkept
    cases hkept

/-- **A step comes closer to the end.** -/
theorem lower_of_onward {s s' : Deepening × Engine π υ} (hs : Searching rules G origin s)
    (hs' : Searching rules G origin s') (h : Onward rules G origin s s')
    (hfinite : {id | ReflTransGen (rules.Leads G) origin id}.Finite) {bound : Nat} (hbound : Bounded bound s'.1) :
    Fewer (left rules G origin bound s') (left rules G origin bound s) := by
  rcases h.tree with hsame | ⟨slot, hmet, hnone, hkept⟩
  · rw [left, left, hsame, h.root]
    refine .right _ ?_
    rcases h.search with ⟨hlimit, hfound⟩ | hdeeper
    · -- The pass goes on, and there are as many nodes to be met as there were.
      have haccount := hs'.underway.account (.refl s'.2.tree) 1 1
      rw [hsame, h.root, hlimit] at haccount
      rw [hlimit]
      exact .right _ (by omega)
    · have hdeepest := hbound.1
      exact .left _ _ (by omega)
  · exact .left _ _ (unexpanded_lt hs.inStep h.grows hfinite hmet hnone hkept)

/-! ## Steps with any budgets -/

/-- A search that is given a budget for its next step. -/
def funded (s : Deepening × Engine π υ) (budget : Budget) : Deepening × Engine π υ :=
  (s.1, { s.2 with expansions := budget })

/-- The search after some steps, each with its own budget. -/
def pulls (rules : Rules π) (budgets : Nat → Budget) (s : Deepening × Engine π υ) : Nat → Deepening × Engine π υ
  | 0 => s
  | i + 1 => (step rules).after (funded (pulls rules budgets s i) (budgets i))

omit [Position π υ] in
theorem exhausted_funded (s : Deepening × Engine π υ) (budget : Budget) :
    (funded s budget).2.expansions.isExhausted = budget.isExhausted :=
  rfl

theorem Searching.funded {s : Deepening × Engine π υ} (h : Searching rules G origin s) (budget : Budget) :
    Searching rules G origin (Deepening.funded s budget) :=
  ⟨h.inStep, h.obeys, h.underway⟩

/-- The first of some steps can be taken on its own. -/
theorem pulls_succ (budgets : Nat → Budget) (s : Deepening × Engine π υ) (i : Nat) :
    pulls rules budgets s (i + 1) =
      pulls rules (fun j => budgets (j + 1)) ((step rules).after (funded s (budgets 0))) i := by
  induction i with
  | zero => rfl
  | succ i ih => rw [pulls, ih, pulls]

section

variable (hwithin : rules.Within G) (hrules : ∀ p ∈ G, ∃ bs, rules.branches p = .ok bs)

include hwithin hrules

/-- **In a finite game without cycles a search comes to be done**, whatever the budgets are. -/
theorem comes_to_end (hfinite : {id | ReflTransGen (rules.Leads G) origin id}.Finite)
    (hacyclic : ∀ id, ReflTransGen (rules.Leads G) origin id → ¬ TransGen (rules.Leads G) id id) {bound : Nat}
    {s : Deepening × Engine π υ} (h : Searching rules G origin s) (hbounded : Bounded bound s.1)
    (hbound : rank rules G (s.2.tree.positionId s.1.root) + 2 ≤ bound) {budgets : Nat → Budget}
    (hbudgets : ∀ i, (budgets i).isExhausted = false) :
    ∃ i s', step rules (funded (pulls rules budgets s i) (budgets i)) = .ok none s' := by
  -- By induction on what is left to be done.
  have hfewer : WellFounded Fewer := WellFounded.prod_lex Nat.lt_wfRel.wf (WellFounded.prod_lex Nat.lt_wfRel.wf Nat.lt_wfRel.wf)
  induction hleft : left rules G origin bound s using hfewer.induction generalizing s budgets with
  | _ l ih =>
    have hfunds := (exhausted_funded s (budgets 0)).trans (hbudgets 0)
    rcases step_spec hwithin hrules (h.funded (budgets 0)) hfunds with ⟨d, hstep, _⟩ | ⟨x, s', hstep, hnext, honward⟩
    · exact ⟨0, _, hstep⟩
    · have hbounded' := honward.bounded bound hbounded (flat_of_rank hfinite hacyclic h hbound)
      have hlower := lower_of_onward (h.funded (budgets 0)) hnext honward hfinite hbounded'
      have hposition : s'.2.tree.positionId s'.1.root = s.2.tree.positionId s.1.root := by
        rw [honward.root]
        exact positionId_of_grows honward.grows h.underway.root.live
      obtain ⟨i, s'', hdone⟩ := ih _ (hleft ▸ hlower) hnext hbounded' (hposition ▸ hbound)
        (fun i => hbudgets (i + 1)) rfl
      refine ⟨i + 1, s'', ?_⟩
      rw [pulls_succ, Edit.after_ok hstep]
      exact hdone

omit hwithin hrules in
/-- A search starts from any position of a tree that obeys the rules. -/
theorem searching_ofRoot {e : Engine π υ} (hstep : e.tree.InStep) (hobeys : e.tree.Obeys rules G) {root : Nat}
    {entry : Entry π υ} (hentry : e.tree.entry? root = some entry) (depth : Nat) :
    Searching rules G (Position.id entry.position) (ofRoot root depth, e) := by
  refine ⟨hstep, hobeys, underway_ofRoot ⟨by rw [hentry, Option.isSome_some], ?_⟩ depth⟩
  rw [Tree.positionId_eq hentry]

/-- From the start of its first pass, a search comes to its end where `comes_to_end` says so. -/
theorem comes_to_end_ofRoot (hfinite : {id | ReflTransGen (rules.Leads G) origin id}.Finite)
    (hacyclic : ∀ id, ReflTransGen (rules.Leads G) origin id → ¬ TransGen (rules.Leads G) id id) {root depth : Nat}
    {e : Engine π υ} (h : Searching rules G origin (ofRoot root depth, e)) {budgets : Nat → Budget}
    (hbudgets : ∀ i, (budgets i).isExhausted = false) :
    ∃ i s', step rules (funded (pulls rules budgets (ofRoot root depth, e) i) (budgets i)) = .ok none s' := by
  have hlimit : (ofRoot root depth).limit = depth := rfl
  have hlevels : Bounded (depth + rank rules G (e.tree.positionId root) + 2) (ofRoot root depth) :=
    ⟨by omega, fun _ => by omega⟩
  have hdeep : rank rules G (e.tree.positionId root) + 2 ≤ depth + rank rules G (e.tree.positionId root) + 2 := by omega
  exact comes_to_end hwithin hrules hfinite hacyclic h hlevels hdeep hbudgets

end

end Deepening

end SearchLab.Game
