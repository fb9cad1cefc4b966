import Mathlib.Data.Finset.Card
import Mathlib.Order.Bounds.Basic
import SearchLab.Graph.Paths
import SearchLab.Proofs.Graph.Exact

/-!
# The search for cheapest ways is exact

A search settles the nodes in the order of their costs. That no step brings a cost down is all it takes, whatever the
costs are: what is settled stays, so every node is settled once at most, each lead is worth a turn, and the search comes
to an end. Then every node has the least cost of all ways to it.

* `Relaxes` — what trying the steps of a node does to costs and leads;
* `run_ends`, `run_keeps` — from what turns keep to what a whole run keeps;
* `Progress` — what holds between two turns, with the nodes settled so far;
* `Progress.advance` — a turn keeps that, and brings the end nearer;
* `run_cheapest` — the search ends, with the least costs.
-/

namespace SearchLab.Graph

open Cost (LawfulCost Climbs)

variable {κ : Type}

/-! ## Leads and the costs found -/

section Leads

variable [Cost κ]

theorem perm_insert (lead : Lead κ) (leads : List (Lead κ)) :
    (lead.insert leads).Perm (lead :: leads) := by
  induction leads with
  | nil => exact .refl _
  | cons other rest ih =>
      unfold Lead.insert
      split
      · exact .refl _
      · exact (ih.cons other).trans (.swap lead other rest)

theorem mem_insert {l : Lead κ} : l ∈ lead.insert leads ↔ l = lead ∨ l ∈ leads :=
  (perm_insert lead leads).mem_iff.trans List.mem_cons

theorem cost_setIfInBounds (s : Search κ) {slot : Nat} (hslot : slot < s.costs.size) (c : κ)
    (leads : List (Lead κ)) (other : Nat) :
    Search.cost { costs := s.costs.setIfInBounds slot c, leads } other = if slot = other then c else s.cost other := by
  unfold Search.cost
  by_cases h : slot = other
  · subst h
    simp [Array.getD_eq_getD_getElem?, hslot]
  · simp [Array.getD_eq_getD_getElem?, h]

end Leads

/-! ## Ways and their costs -/

variable [LinearOrder κ] [OrderTop κ]

/-- The least of some costs, or the one above all others where there are none. -/
def Cheapest (costs : Set κ) (d : κ) : Prop := (d = ⊤ ∧ costs = ∅) ∨ (d ≠ ⊤ ∧ IsLeast costs d)

theorem Cheapest.unique {costs : Set κ} {d d' : κ} (h : Cheapest costs d) (h' : Cheapest costs d') :
    d = d' := by
  rcases h with ⟨rfl, hempty⟩ | ⟨-, hleast⟩ <;> rcases h' with ⟨rfl, hempty'⟩ | ⟨-, hleast'⟩
  · rfl
  · exact absurd hleast'.1 (by simp [hempty])
  · exact absurd hleast.1 (by simp [hempty'])
  · exact hleast.unique hleast'

variable [Cost κ]

/-- The ways along some steps from an origin, with what they cost. -/
inductive Way (steps : Steps κ) (origin : Nat) : Nat → κ → Prop
  | stay : Way steps origin origin (Cost.ofNat 0)
  | step {slot next : Nat} {c w : κ} (h : Way steps origin slot c) (hstep : (next, w) ∈ steps slot) :
      Way steps origin next (Cost.add c w)

/-- Steps within some slots, so many from each at most, of which none brings a cost down. -/
structure Network (steps : Steps κ) (slots : Finset Nat) (degree : Nat) : Prop where
  closed : ∀ {slot next w}, (next, w) ∈ steps slot → next ∈ slots
  price : ∀ {slot next w}, (next, w) ∈ steps slot → Climbs w
  degree : ∀ slot, (steps slot).length ≤ degree

section Ways

variable [LawfulCost κ] {steps : Steps κ} {slots : Finset Nat} {degree origin slot : Nat} {c : κ}

theorem Way.cost (h : Way steps origin slot c) (hnet : Network steps slots degree) : Cost.ofNat 0 ≤ c ∧ c ≠ ⊤ := by
  induction h with
  | stay => exact ⟨le_rfl, LawfulCost.zero_ne_top⟩
  | step _ hstep ih =>
      have hclimbs := hnet.price hstep
      exact ⟨ih.1.trans (hclimbs.le_add _), hclimbs.ne_top ih.2⟩

/-- To stay costs nothing, and no way back costs less. -/
theorem cheapest_origin {d : κ} (hnet : Network steps slots degree)
    (h : Cheapest {c | Way steps origin origin c} d) : d = Cost.ofNat 0 := by
  have hzero : Cheapest {c | Way steps origin origin c} (Cost.ofNat 0) :=
    .inr ⟨LawfulCost.zero_ne_top, .stay, fun _ hc => (hc.cost hnet).1⟩
  exact h.unique hzero

end Ways

/-! ## Leads in order -/

variable [LawfulCost κ] {lead : Lead κ} {leads : List (Lead κ)}

/-- The cheapest lead stays first. -/
theorem pairwise_insert (h : leads.Pairwise fun l m => l.cost ≤ m.cost) :
    (lead.insert leads).Pairwise fun l m => l.cost ≤ m.cost := by
  induction leads with
  | nil => exact List.pairwise_singleton _ _
  | cons other rest ih =>
      obtain ⟨hfirst, hrest⟩ := List.pairwise_cons.mp h
      unfold Lead.insert
      split
      · rename_i hbefore
        have hle : lead.cost ≤ other.cost := by
          simp only [Lead.before, Bool.or_eq_true, Bool.and_eq_true, Bool.not_eq_true', LawfulCost.less_iff] at hbefore
          rcases hbefore with hless | ⟨hnot, -⟩
          · exact hless.le
          · exact not_lt.mp fun hless => by simp [LawfulCost.less_iff.mpr hless] at hnot
        refine List.pairwise_cons.mpr ⟨fun l hl => ?_, h⟩
        rcases List.mem_cons.mp hl with rfl | hl
        · exact hle
        · exact hle.trans (hfirst l hl)
      · rename_i hbefore
        have hle : other.cost ≤ lead.cost := by
          refine not_lt.mp fun hless => hbefore ?_
          simp [Lead.before, LawfulCost.less_iff.mpr hless]
        refine List.pairwise_cons.mpr ⟨fun l hl => ?_, ih hrest⟩
        rcases mem_insert.mp hl with rfl | hl
        · exact hle
        · exact hfirst l hl

/-! ## Trying steps -/

/-- What trying some steps from a node of a cost does: costs fall at most, each lower one is that of a step and becomes a
lead, and no lead goes. -/
structure Relaxes (cost : κ) (tried : List (Nat × κ)) (s t : Search κ) : Prop where
  size : t.costs.size = s.costs.size
  lower : ∀ slot, t.cost slot ≤ s.cost slot
  atMost : ∀ {slot w}, (slot, w) ∈ tried → t.cost slot ≤ Cost.add cost w
  source : ∀ {slot}, t.cost slot ≠ s.cost slot →
    (∃ w, (slot, w) ∈ tried ∧ t.cost slot = Cost.add cost w) ∧ ⟨t.cost slot, slot⟩ ∈ t.leads
  kept : ∀ {l}, l ∈ s.leads → l ∈ t.leads
  leads : ∀ {l}, l ∈ t.leads → l ∈ s.leads ∨
    (∃ w, (l.slot, w) ∈ tried ∧ l.cost = Cost.add cost w) ∧ t.cost l.slot ≤ l.cost ∧ l.cost < s.cost l.slot
  sorted : s.leads.Pairwise (fun l m => l.cost ≤ m.cost) → t.leads.Pairwise fun l m => l.cost ≤ m.cost
  nodup : (∀ l ∈ s.leads, s.cost l.slot ≤ l.cost) → s.leads.Nodup → t.leads.Nodup
  length : t.leads.length ≤ s.leads.length + tried.length

namespace Relaxes

variable {cost : κ} {tried tried' : List (Nat × κ)} {s t u : Search κ}

omit [OrderTop κ] [LawfulCost κ] in
theorem refl (cost : κ) (s : Search κ) : Relaxes cost [] s s where
  size := rfl
  lower _ := le_rfl
  atMost h := absurd h List.not_mem_nil
  source h := absurd rfl h
  kept := id
  leads := .inl
  sorted := id
  nodup _ := id
  length := le_rfl

omit [OrderTop κ] [LawfulCost κ] in
theorem trans (h : Relaxes cost tried s t) (h' : Relaxes cost tried' t u) : Relaxes cost (tried ++ tried') s u where
  size := h'.size.trans h.size
  lower slot := (h'.lower slot).trans (h.lower slot)
  atMost {slot w} hstep := by
    rcases List.mem_append.mp hstep with hstep | hstep
    · exact (h'.lower slot).trans (h.atMost hstep)
    · exact h'.atMost hstep
  source {slot} hchanged := by
    by_cases hsame : u.cost slot = t.cost slot
    · rw [hsame] at hchanged ⊢
      obtain ⟨⟨w, hstep, hcost⟩, hlead⟩ := h.source hchanged
      exact ⟨⟨w, List.mem_append_left _ hstep, hcost⟩, h'.kept hlead⟩
    · obtain ⟨⟨w, hstep, hcost⟩, hlead⟩ := h'.source hsame
      exact ⟨⟨w, List.mem_append_right _ hstep, hcost⟩, hlead⟩
  kept hl := h'.kept (h.kept hl)
  leads {l} hl := by
    rcases h'.leads hl with hl | ⟨⟨w, hstep, hcost⟩, hle, hlt⟩
    · rcases h.leads hl with hl | ⟨⟨w, hstep, hcost⟩, hle, hlt⟩
      · exact .inl hl
      · exact .inr ⟨⟨w, List.mem_append_left _ hstep, hcost⟩, (h'.lower _).trans hle, hlt⟩
    · exact .inr ⟨⟨w, List.mem_append_right _ hstep, hcost⟩, hle, hlt.trans_le (h.lower _)⟩
  sorted hs := h'.sorted (h.sorted hs)
  nodup hbound hs := by
    refine h'.nodup (fun l hl => ?_) (h.nodup hbound hs)
    rcases h.leads hl with hl | ⟨-, hle, -⟩
    · exact (h.lower _).trans (hbound l hl)
    · exact hle
  length := by
    have hfirst := h.length
    have hsecond := h'.length
    rw [List.length_append]
    omega

omit [LawfulCost κ] in
/-- Steps that bring no cost down find nothing cheaper than the node that they are tried from. -/
theorem same_of_le (h : Relaxes cost tried s t) (hclimbs : ∀ {slot w}, (slot, w) ∈ tried → Climbs w) {slot : Nat}
    (hle : s.cost slot ≤ cost) : t.cost slot = s.cost slot := by
  by_contra hchanged
  obtain ⟨⟨w, hstep, hnew⟩, -⟩ := h.source hchanged
  have hno : s.cost slot ≤ t.cost slot := by
    rw [hnew]
    exact hle.trans ((hclimbs hstep).le_add _)
  exact hchanged (le_antisymm (h.lower slot) hno)

end Relaxes

/-- Trying one step. -/
theorem relaxes_relax (cost : κ) (s : Search κ) {step : Nat × κ}
    (hslot : step.1 < s.costs.size) : Relaxes cost [step] s (Search.relax cost s step) := by
  unfold Search.relax
  dsimp only
  split
  · rename_i hless
    have hless : Cost.add cost step.2 < s.cost step.1 := LawfulCost.less_iff.mp hless
    have hcost := cost_setIfInBounds s hslot (Cost.add cost step.2) (Lead.insert ⟨Cost.add cost step.2, step.1⟩ s.leads)
    refine ⟨by simp, fun slot => ?_, fun {slot w} hstep => ?_, fun {slot} hchanged => ?_, fun hl => ?_, fun {l} hl => ?_,
      pairwise_insert, fun hbound hs => ?_, ?_⟩
    · rw [hcost]
      split
      · rename_i heq
        exact heq ▸ hless.le
      · exact le_rfl
    · obtain rfl := List.mem_singleton.mp hstep
      rw [hcost, if_pos rfl]
    · rw [hcost] at hchanged ⊢
      split at hchanged
      · rename_i heq
        subst heq
        rw [if_pos rfl]
        exact ⟨⟨step.2, List.mem_singleton_self _, rfl⟩, mem_insert.mpr (.inl rfl)⟩
      · exact absurd rfl hchanged
    · exact mem_insert.mpr (.inr hl)
    · rcases mem_insert.mp hl with rfl | hl
      · refine .inr ⟨⟨step.2, List.mem_singleton_self _, rfl⟩, ?_, hless⟩
        rw [hcost, if_pos rfl]
      · exact .inl hl
    · refine (perm_insert _ _).nodup_iff.mpr (List.nodup_cons.mpr ⟨fun hmem => ?_, hs⟩)
      exact absurd (hbound _ hmem) (not_le.mpr hless)
    · simp [(perm_insert _ _).length_eq]
  · rename_i hless
    have hle : s.cost step.1 ≤ Cost.add cost step.2 := not_lt.mp fun hlt => hless (LawfulCost.less_iff.mpr hlt)
    refine ⟨rfl, fun _ => le_rfl, fun {slot w} hstep => ?_, fun h => absurd rfl h, id, .inl, id, fun _ => id, by simp⟩
    obtain rfl := List.mem_singleton.mp hstep
    exact hle

/-- Trying some steps one after the other. -/
theorem relaxes_foldl (cost : κ) (tried : List (Nat × κ)) {s : Search κ}
    (h : ∀ step ∈ tried, step.1 < s.costs.size) : Relaxes cost tried s (tried.foldl (Search.relax cost) s) := by
  induction tried generalizing s with
  | nil => exact .refl cost s
  | cons step rest ih =>
      have hfirst := relaxes_relax cost s (h step List.mem_cons_self)
      have hrest := ih (s := Search.relax cost s step) fun next hnext => by
        rw [hfirst.size]
        exact h next (List.mem_cons_of_mem step hnext)
      exact hfirst.trans hrest

/-! ## Turns -/

/-- A turn drops the lead, or tries the steps of its node. -/
theorem advance_cases (steps : Steps κ) (s : Search κ) (lead : Lead κ) (rest : List (Lead κ)) :
    (s.cost lead.slot < lead.cost ∧ s.advance steps lead rest = { s with leads := rest }) ∨
      (lead.cost ≤ s.cost lead.slot ∧ s.advance steps lead rest =
        (steps lead.slot).foldl (Search.relax lead.cost) { s with leads := rest }) := by
  by_cases hstale : Cost.less (s.cost lead.slot) lead.cost = true
  · exact .inl ⟨LawfulCost.less_iff.mp hstale, if_pos hstale⟩
  · exact .inr ⟨not_lt.mp fun hless => hstale (LawfulCost.less_iff.mpr hless), if_neg hstale⟩

/-- Before the first turn, only the origin has a cost. -/
theorem cost_start {size origin : Nat} (horigin : origin < size) (leads : List (Lead κ)) (slot : Nat) :
    Search.cost (κ := κ) ⟨(Array.replicate size Cost.infinite).setIfInBounds origin (Cost.ofNat 0), leads⟩ slot =
      if origin = slot then Cost.ofNat 0 else ⊤ := by
  rw [cost_setIfInBounds ⟨Array.replicate size Cost.infinite, []⟩ (by simpa using horigin)]
  have hnone : Search.cost ⟨Array.replicate size (Cost.infinite : κ), []⟩ slot = ⊤ := by
    rw [← LawfulCost.infinite_eq]
    simp only [Search.cost, Array.getD_eq_getD_getElem?, Array.getElem?_replicate]
    split <;> rfl
  rw [hnone]

section Runs

variable {steps : Steps κ} {turns : Nat} {s t : Search κ}

omit [LinearOrder κ] [OrderTop κ] [LawfulCost κ] in
/-- A search whose turns keep something of a kind, and leave fewer turns each time, comes to its end. -/
theorem run_ends {σ : Type} {P : σ → Search κ → Prop} {left : σ → Search κ → Nat}
    (hturn : ∀ {a s lead rest}, P a s → s.leads = lead :: rest →
      ∃ b, P b (s.advance steps lead rest) ∧ left b (s.advance steps lead rest) < left a s)
    {a : σ} (h : P a s) (hturns : left a s ≤ turns) :
    ∃ t b, Search.run steps turns s = some t ∧ P b t ∧ t.leads = [] := by
  induction turns generalizing s a with
  | zero =>
      cases hleads : s.leads with
      | nil => exact ⟨s, a, by simp [Search.run, hleads], h, hleads⟩
      | cons lead rest =>
          obtain ⟨b, -, hless⟩ := hturn h hleads
          omega
  | succ turns ih =>
      cases hleads : s.leads with
      | nil => exact ⟨s, a, by simp only [Search.run, hleads], h, hleads⟩
      | cons lead rest =>
          obtain ⟨b, hnext, hless⟩ := hturn h hleads
          obtain ⟨t, c, hrun, hend⟩ := ih hnext (by omega)
          exact ⟨t, c, by simpa only [Search.run, hleads] using hrun, hend⟩

omit [LinearOrder κ] [OrderTop κ] [LawfulCost κ] in
/-- What every turn keeps holds at the end, when no lead is left. -/
theorem run_keeps {P : Search κ → Prop}
    (hturn : ∀ {s lead rest}, P s → s.leads = lead :: rest → P (s.advance steps lead rest)) (h : P s)
    (hrun : Search.run steps turns s = some t) : P t ∧ t.leads = [] := by
  induction turns generalizing s with
  | zero =>
      unfold Search.run at hrun
      split at hrun
      · rename_i hnone
        cases hrun
        exact ⟨h, List.isEmpty_iff.mp hnone⟩
      · cases hrun
  | succ turns ih =>
      cases hleads : s.leads with
      | nil =>
          simp only [Search.run, hleads] at hrun
          cases hrun
          exact ⟨h, hleads⟩
      | cons lead rest =>
          simp only [Search.run, hleads] at hrun
          exact ih (hturn h hleads) hrun

end Runs

/-- What holds between two turns of a search, some nodes being settled: the costs found are those of ways, steps from
settled nodes lead to nothing new, and every other node that was found waits as a lead. -/
structure Progress (steps : Steps κ) (slots : Finset Nat) (origin : Nat) (done : Finset Nat)
    (s : Search κ) : Prop where
  size : ∀ {slot}, slot ∈ slots → slot < s.costs.size
  free : s.cost origin ≤ Cost.ofNat 0
  found : ∀ {slot}, s.cost slot ≠ ⊤ → Way steps origin slot (s.cost slot)
  sorted : s.leads.Pairwise fun l m => l.cost ≤ m.cost
  nodup : s.leads.Nodup
  lead : ∀ l ∈ s.leads, l.slot ∈ slots ∧ s.cost l.slot ≤ l.cost ∧ l.cost ≠ ⊤
  within : done ⊆ slots
  settled : ∀ {slot}, slot ∈ done → ∀ {next w}, (next, w) ∈ steps slot → s.cost next ≤ Cost.add (s.cost slot) w
  ahead : ∀ {slot}, slot ∈ done → ∀ l ∈ s.leads, s.cost slot ≤ l.cost
  stale : ∀ {slot}, slot ∈ done → ⟨s.cost slot, slot⟩ ∉ s.leads
  waits : ∀ {slot}, s.cost slot ≠ ⊤ → slot ∉ done → ⟨s.cost slot, slot⟩ ∈ s.leads

/-- How many turns a search may still take. -/
def turnsLeft (slots : Finset Nat) (degree : Nat) (done : Finset Nat) (s : Search κ) : Nat :=
  s.leads.length + degree * (slots \ done).card

namespace Progress

variable {steps : Steps κ} {slots done : Finset Nat} {degree origin : Nat} {s : Search κ}

/-- Before the first turn. -/
theorem start {size : Nat} (hsize : ∀ slot ∈ slots, slot < size) (horigin : origin ∈ slots) :
    Progress steps slots origin ∅
      ⟨(Array.replicate size Cost.infinite).setIfInBounds origin (Cost.ofNat 0), [⟨Cost.ofNat 0, origin⟩]⟩ := by
  have hcost := cost_start (κ := κ) (hsize origin horigin) [⟨Cost.ofNat 0, origin⟩]
  refine ⟨fun hslot => by simpa using hsize _ hslot, by rw [hcost, if_pos rfl], fun {slot} hfound => ?_,
    List.pairwise_singleton _ _, List.nodup_singleton _, fun l hl => ?_, Finset.empty_subset _, fun h => ?_, fun h => ?_,
    fun h => ?_, fun {slot} hfound _ => ?_⟩
  · rw [hcost] at hfound ⊢
    split at hfound
    · rename_i heq
      rw [if_pos heq, ← heq]
      exact .stay
    · exact absurd rfl hfound
  · obtain rfl := List.mem_singleton.mp hl
    exact ⟨horigin, by rw [hcost, if_pos rfl], LawfulCost.zero_ne_top⟩
  · exact absurd h (Finset.notMem_empty _)
  · exact absurd h (Finset.notMem_empty _)
  · exact absurd h (Finset.notMem_empty _)
  · rw [hcost] at hfound ⊢
    split at hfound
    · rename_i heq
      rw [if_pos heq, ← heq]
      exact List.mem_singleton_self _
    · exact absurd rfl hfound

variable {lead : Lead κ} {rest : List (Lead κ)}

omit [LawfulCost κ] in
/-- A lead to a node that a cheaper way has been found to is dropped. -/
theorem drop (h : Progress steps slots origin done s) (hleads : s.leads = lead :: rest)
    (hstale : s.cost lead.slot < lead.cost) : Progress steps slots origin done { s with leads := rest } := by
  have hsub : ∀ {l}, l ∈ rest → l ∈ s.leads := fun hl => hleads ▸ List.mem_cons_of_mem lead hl
  have hsorted := hleads ▸ h.sorted
  have hnodup := hleads ▸ h.nodup
  refine ⟨h.size, h.free, h.found, (List.pairwise_cons.mp hsorted).2, (List.nodup_cons.mp hnodup).2,
    fun l hl => h.lead l (hsub hl), h.within, h.settled, fun hdone l hl => h.ahead hdone l (hsub hl),
    fun hdone hmem => h.stale hdone (hsub hmem), fun {slot} hfound hopen => ?_⟩
  have hwaits := hleads ▸ h.waits hfound hopen
  rcases List.mem_cons.mp hwaits with heq | hmem
  · subst heq
    exact absurd hstale (lt_irrefl _)
  · exact hmem

omit [LawfulCost κ] in
/-- A lead that is no costlier than what was found for its node was found for it. -/
theorem cost_of_fresh (h : Progress steps slots origin done s) (hleads : s.leads = lead :: rest)
    (hfresh : lead.cost ≤ s.cost lead.slot) : s.cost lead.slot = lead.cost :=
  le_antisymm (h.lead lead (hleads ▸ List.mem_cons_self)).2.1 hfresh

omit [LawfulCost κ] in
theorem not_done (h : Progress steps slots origin done s) (hleads : s.leads = lead :: rest)
    (hfresh : lead.cost ≤ s.cost lead.slot) : lead.slot ∉ done := by
  intro hdone
  refine h.stale hdone ?_
  rw [h.cost_of_fresh hleads hfresh, hleads]
  exact List.mem_cons_self

omit [LawfulCost κ] in
/-- With the node of the first lead, what is settled costs no more than that lead. -/
theorem le_lead (h : Progress steps slots origin done s) (hleads : s.leads = lead :: rest) {slot : Nat}
    (hdone : slot ∈ insert lead.slot done) : s.cost slot ≤ lead.cost := by
  have hfirst : lead ∈ s.leads := hleads ▸ List.mem_cons_self
  rcases Finset.mem_insert.mp hdone with rfl | hdone
  · exact (h.lead lead hfirst).2.1
  · exact h.ahead hdone lead hfirst

/-- The node of a lead that is no costlier than what was found is settled. -/
theorem settle (hnet : Network steps slots degree) (h : Progress steps slots origin done s)
    (hleads : s.leads = lead :: rest) (hfresh : lead.cost ≤ s.cost lead.slot) :
    Progress steps slots origin (insert lead.slot done)
      ((steps lead.slot).foldl (Search.relax lead.cost) { s with leads := rest }) := by
  obtain ⟨hslot, -, hfinite⟩ := h.lead lead (hleads ▸ List.mem_cons_self)
  have hcost := h.cost_of_fresh hleads hfresh
  obtain ⟨hrestLe, hrestSorted⟩ := List.pairwise_cons.mp (hleads ▸ h.sorted)
  obtain ⟨hnotRest, hrestNodup⟩ := List.nodup_cons.mp (hleads ▸ h.nodup)
  have hsub : ∀ {l}, l ∈ rest → l ∈ s.leads := fun hl => hleads ▸ List.mem_cons_of_mem lead hl
  have hrelaxes := relaxes_foldl lead.cost (steps lead.slot) (s := { s with leads := rest })
    fun step hstep => h.size (hnet.closed hstep)
  generalize (steps lead.slot).foldl (Search.relax lead.cost) { s with leads := rest } = t at hrelaxes
  have hlower : ∀ slot, t.cost slot ≤ s.cost slot := hrelaxes.lower
  -- No step from the lead makes cheaper what is settled.
  have hsame : ∀ {slot}, slot ∈ insert lead.slot done → t.cost slot = s.cost slot := fun hdone =>
    hrelaxes.same_of_le hnet.price (h.le_lead hleads hdone)
  refine
    { size := fun hslot => hrelaxes.size ▸ h.size hslot
      free := (hlower origin).trans h.free
      found := fun {slot} hfound => ?found
      sorted := hrelaxes.sorted hrestSorted
      nodup := hrelaxes.nodup (fun l hl => (h.lead l (hsub hl)).2.1) hrestNodup
      lead := fun l hl => ?lead
      within := Finset.insert_subset hslot h.within
      settled := fun {slot} hdone {next w} hstep => ?settled
      ahead := fun {slot} hdone l hl => ?ahead
      stale := fun {slot} hdone hmem => ?stale
      waits := fun {slot} hfound hwaiting => ?waits }
  case found =>
    by_cases hchanged : t.cost slot = s.cost slot
    · rw [hchanged] at hfound ⊢
      exact h.found hfound
    · obtain ⟨⟨w, hstep, hnew⟩, -⟩ := hrelaxes.source hchanged
      have hway := h.found (hcost ▸ hfinite)
      rw [hcost] at hway
      rw [hnew]
      exact hway.step hstep
  case lead =>
    rcases hrelaxes.leads hl with hl | ⟨⟨w, hstep, -⟩, hbound, hless⟩
    · obtain ⟨hin, hbound, hnot⟩ := h.lead l (hsub hl)
      exact ⟨hin, (hlower _).trans hbound, hnot⟩
    · exact ⟨hnet.closed hstep, hbound, hless.ne_top⟩
  case settled =>
    rw [hsame hdone]
    rcases Finset.mem_insert.mp hdone with rfl | hdone
    · rw [hcost]
      exact hrelaxes.atMost hstep
    · exact (hlower next).trans (h.settled hdone hstep)
  case ahead =>
    rw [hsame hdone]
    refine (h.le_lead hleads hdone).trans ?_
    rcases hrelaxes.leads hl with hl | ⟨⟨w, hstep, hnew⟩, -, -⟩
    · exact hrestLe l hl
    · rw [hnew]
      exact (hnet.price hstep).le_add _
  case stale =>
    rw [hsame hdone] at hmem
    rcases hrelaxes.leads hmem with hmem | ⟨-, -, hless⟩
    · rcases Finset.mem_insert.mp hdone with rfl | hdone
      · rw [hcost] at hmem
        exact hnotRest hmem
      · exact h.stale hdone (hsub hmem)
    · exact absurd hless (lt_irrefl _)
  case waits =>
    obtain ⟨hother, hnotDone⟩ := not_or.mp (Finset.mem_insert.not.mp hwaiting)
    by_cases hchanged : t.cost slot = s.cost slot
    · rw [hchanged] at hfound ⊢
      have hmem := hleads ▸ h.waits hfound hnotDone
      rcases List.mem_cons.mp hmem with heq | hmem
      · exact absurd (congrArg Lead.slot heq) hother
      · exact hrelaxes.kept hmem
    · exact (hrelaxes.source hchanged).2

/-- **A turn** keeps what holds between turns, and there are fewer turns left. -/
theorem advance (hnet : Network steps slots degree) (h : Progress steps slots origin done s)
    (hleads : s.leads = lead :: rest) :
    ∃ done', Progress steps slots origin done' (s.advance steps lead rest) ∧
      turnsLeft slots degree done' (s.advance steps lead rest) < turnsLeft slots degree done s := by
  have hlength : s.leads.length = rest.length + 1 := by rw [hleads, List.length_cons]
  rcases advance_cases steps s lead rest with ⟨hstale, hadvance⟩ | ⟨hfresh, hadvance⟩
  · rw [hadvance]
    refine ⟨done, h.drop hleads hstale, ?_⟩
    rw [turnsLeft, turnsLeft, hlength]
    dsimp only
    omega
  · have hnext := h.settle hnet hleads hfresh
    have hrelaxes : Relaxes lead.cost (steps lead.slot) { s with leads := rest } (s.advance steps lead rest) :=
      hadvance ▸ relaxes_foldl lead.cost _ fun step hstep => h.size (hnet.closed hstep)
    have hgrows : (s.advance steps lead rest).leads.length ≤ rest.length + (steps lead.slot).length := hrelaxes.length
    have hslot : lead.slot ∈ slots \ done :=
      Finset.mem_sdiff.mpr ⟨(h.lead lead (hleads ▸ List.mem_cons_self)).1, h.not_done hleads hfresh⟩
    have hcard : (slots \ insert lead.slot done).card + 1 = (slots \ done).card := by
      rw [Finset.sdiff_insert, Finset.card_erase_add_one hslot]
    have hdegree := hnet.degree lead.slot
    refine ⟨insert lead.slot done, hadvance ▸ hnext, ?_⟩
    rw [turnsLeft, turnsLeft, ← hcard, hlength, Nat.mul_add, Nat.mul_one]
    omega

/-- So a search comes to its end. -/
theorem run (hnet : Network steps slots degree) {turns : Nat} (h : Progress steps slots origin done s)
    (hturns : turnsLeft slots degree done s ≤ turns) :
    ∃ t done', Search.run steps turns s = some t ∧ Progress steps slots origin done' t ∧ t.leads = [] :=
  run_ends (fun h hleads => h.advance hnet hleads) h hturns

omit [LawfulCost κ] in
/-- At the end, no way costs less than what was found. -/
theorem le_of_way (hnet : Network steps slots degree) (h : Progress steps slots origin done s) (hend : s.leads = [])
    {slot : Nat} {c : κ} (hway : Way steps origin slot c) : s.cost slot ≤ c := by
  induction hway with
  | stay => exact h.free
  | @step slot next c w _ hstep ih =>
      by_cases hfound : s.cost slot = ⊤
      · rw [hfound, top_le_iff] at ih
        exact le_top.trans (ih ▸ (hnet.price hstep).le_add c)
      · have hdone : slot ∈ done := by
          by_contra hopen
          have hwaits := h.waits hfound hopen
          rw [hend] at hwaits
          exact List.not_mem_nil hwaits
        exact (h.settled hdone hstep).trans ((hnet.price hstep).mono ih)

theorem cheapest (hnet : Network steps slots degree) (h : Progress steps slots origin done s) (hend : s.leads = [])
    (slot : Nat) : Cheapest {c | Way steps origin slot c} (s.cost slot) := by
  by_cases hfound : s.cost slot = ⊤
  · refine .inl ⟨hfound, Set.eq_empty_iff_forall_notMem.mpr fun c hc => (hc.cost hnet).2 ?_⟩
    exact top_le_iff.mp (hfound ▸ h.le_of_way hnet hend hc)
  · exact .inr ⟨hfound, h.found hfound, fun _ hc => h.le_of_way hnet hend hc⟩

end Progress

/-- **The search ends**, and every node has the least cost of all ways to it. -/
theorem run_cheapest {steps : Steps κ} {slots : Finset Nat} {degree origin size turns : Nat}
    (hnet : Network steps slots degree) (hsize : ∀ slot ∈ slots, slot < size) (horigin : origin ∈ slots)
    (hturns : 1 + degree * slots.card ≤ turns) :
    ∃ t, Search.run steps turns ⟨(Array.replicate size Cost.infinite).setIfInBounds origin (Cost.ofNat 0),
        [⟨Cost.ofNat 0, origin⟩]⟩ = some t ∧
      ∀ slot, Cheapest {c | Way steps origin slot c} (t.cost slot) := by
  have hstart : Progress steps slots origin ∅ _ := .start hsize horigin
  obtain ⟨t, done, hrun, hend, hnone⟩ := hstart.run hnet (by simpa [turnsLeft] using hturns)
  exact ⟨t, hrun, hend.cheapest hnet hnone⟩

end SearchLab.Graph
