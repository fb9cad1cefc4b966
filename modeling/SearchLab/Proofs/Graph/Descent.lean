import SearchLab.Proofs.Graph.Distances
import SearchLab.Proofs.Notation.FreeForm

/-!
# Searches over costs below zero

Where edges may cost less than nothing, a node that was visited may be found again at a lower cost, and is visited again.
Around a walk that ends where it began and costs less than nothing, costs fall without end, and so does the search. There
is no other way for it to go on for ever: until a node is visited again, some node is visited that costs no less than the
node did the last time, since else all that was found in between comes of that visit, and with it a walk around for less
than nothing. So the costliest visit of all is the only one of its node, and there are fewer than `2 ^ n` visits to `n`
nodes.

* `Spaced` — what lies between two visits of a node;
* `Visiting.advance` — a turn keeps the visits so, unless costs fall without end;
* `Attended.not_bottomless` — a search that has come to its end has found no costs that fall without end;
* `search_ends_iff` — when the search of a graph ends.
-/

namespace SearchLab.Graph

/-! ## Visits -/

section Visits

variable {κ : Type} [LinearOrder κ] {slots : Finset Nat}

/-- Of visits, the newest first: a node is visited again for less than before, and in between some node is visited for no
less than that. -/
def Spaced (visits : List (Lead κ)) : Prop :=
  ∀ ⦃later between earlier : List (Lead κ)⦄ ⦃x y : Lead κ⦄, visits = later ++ y :: (between ++ x :: earlier) →
    x.slot = y.slot → y.cost < x.cost ∧ ∃ z ∈ between, x.cost ≤ z.cost

theorem Spaced.newer {visits older : List (Lead κ)} (h : Spaced (visits ++ older)) : Spaced visits := by
  rintro later between earlier x y rfl hsame
  have hwhole : later ++ y :: (between ++ x :: earlier) ++ older = later ++ y :: (between ++ x :: (earlier ++ older)) := by
    simp
  exact h hwhole hsame

theorem Spaced.older {newer visits : List (Lead κ)} (h : Spaced (newer ++ visits)) : Spaced visits := by
  rintro later between earlier x y rfl hsame
  exact h (List.append_assoc newer later _).symm hsame

/-- Of some visits, the newest of the costliest ones. -/
theorem exists_costliest {visits : List (Lead κ)} (hsome : visits ≠ []) :
    ∃ later m earlier, visits = later ++ m :: earlier ∧ (∀ z ∈ later, z.cost < m.cost) ∧ ∀ z ∈ earlier, z.cost ≤ m.cost := by
  induction visits with
  | nil => exact absurd rfl hsome
  | cons v rest ih =>
      by_cases hrest : rest = []
      · exact ⟨[], v, [], by rw [hrest]; rfl, by simp, by simp⟩
      · obtain ⟨later, m, earlier, rfl, hlater, hearlier⟩ := ih hrest
        rcases lt_or_ge v.cost m.cost with hless | hle
        · exact ⟨v :: later, m, earlier, rfl, List.forall_mem_cons.mpr ⟨hless, hlater⟩, hearlier⟩
        · refine ⟨[], v, later ++ m :: earlier, rfl, by simp, fun z hz => ?_⟩
          rcases List.mem_append.mp hz with hz | hz
          · exact (hlater z hz).le.trans hle
          · rcases List.mem_cons.mp hz with rfl | hz
            · exact hle
            · exact (hearlier z hz).trans hle

/-- The newest of the costliest visits is the only one of its node. -/
theorem Spaced.only {later earlier : List (Lead κ)} {m : Lead κ} (h : Spaced (later ++ m :: earlier))
    (hlater : ∀ z ∈ later, z.cost < m.cost) (hearlier : ∀ z ∈ earlier, z.cost ≤ m.cost) :
    (∀ v ∈ later, v.slot ≠ m.slot) ∧ ∀ v ∈ earlier, v.slot ≠ m.slot := by
  constructor
  · intro v hv hsame
    obtain ⟨before, between, rfl⟩ := List.append_of_mem hv
    obtain ⟨-, z, hz, hle⟩ := h (List.append_assoc before (v :: between) (m :: earlier)) hsame.symm
    exact (hlater z (List.mem_append_right _ (List.mem_cons_of_mem v hz))).not_ge hle
  · intro v hv hsame
    obtain ⟨between, before, rfl⟩ := List.append_of_mem hv
    exact (h rfl hsame).1.not_ge (hearlier v hv)

/-- So there are fewer visits than there are sets of nodes. -/
theorem Spaced.length_lt {visits : List (Lead κ)} (h : Spaced visits) (hslots : ∀ v ∈ visits, v.slot ∈ slots) :
    visits.length < 2 ^ slots.card := by
  generalize hcard : slots.card = n
  induction n generalizing visits slots with
  | zero =>
      obtain rfl := Finset.card_eq_zero.mp hcard
      have hnone : visits = [] := List.eq_nil_iff_forall_not_mem.mpr fun v hv => absurd (hslots v hv) (Finset.notMem_empty _)
      simp [hnone]
  | succ n ih =>
      by_cases hnone : visits = []
      · simp [hnone]
      · obtain ⟨later, m, earlier, rfl, hlater, hearlier⟩ := exists_costliest hnone
        obtain ⟨honly, honly'⟩ := h.only hlater hearlier
        have hm : m.slot ∈ slots := hslots m (by simp)
        have hrest : (slots.erase m.slot).card = n := by rw [Finset.card_erase_of_mem hm, hcard, Nat.add_sub_cancel]
        have htail : Spaced ([m] ++ earlier) := h.older
        have hafter : later.length < 2 ^ n :=
          ih h.newer (fun v hv => Finset.mem_erase.mpr ⟨honly v hv, hslots v (by simp [hv])⟩) hrest
        have hbefore : earlier.length < 2 ^ n :=
          ih htail.older (fun v hv => Finset.mem_erase.mpr ⟨honly' v hv, hslots v (by simp [hv])⟩) hrest
        rw [List.length_append, List.length_cons, Nat.pow_succ]
        omega

end Visits

/-! ## Costs that fall without end -/

variable {steps : Steps (WithTop ℚ)} {slots : Finset Nat} {degree origin : Nat} {visits : List (Lead (WithTop ℚ))}
  {s t : Search (WithTop ℚ)} {lead : Lead (WithTop ℚ)} {rest : List (Lead (WithTop ℚ))}

/-- Some way from the origin leads on to one that goes around for less than nothing. -/
def Bottomless (steps : Steps (WithTop ℚ)) (origin : Nat) : Prop :=
  ∃ slot c d, Way steps origin slot c ∧ c ≠ ⊤ ∧ Way steps slot slot d ∧ d < 0

/-- Steps within some slots, so many from each at most. -/
structure Bounded (steps : Steps (WithTop ℚ)) (slots : Finset Nat) (degree : Nat) : Prop where
  closed : ∀ {slot next w}, (next, w) ∈ steps slot → next ∈ slots
  degree : ∀ slot, (steps slot).length ≤ degree

/-! ## Turns without such costs -/

/-- What is known of a lead: it has the cost of a way, and is no cheaper than what was found. -/
structure Known (steps : Steps (WithTop ℚ)) (slots : Finset Nat) (origin : Nat) (s : Search (WithTop ℚ))
    (l : Lead (WithTop ℚ)) : Prop where
  slot : l.slot ∈ slots
  bound : s.cost l.slot ≤ l.cost
  finite : l.cost ≠ ⊤
  way : Way steps origin l.slot l.cost

theorem Known.lower {l : Lead (WithTop ℚ)} (h : Known steps slots origin s l) (hlower : ∀ slot, t.cost slot ≤ s.cost slot) :
    Known steps slots origin t l :=
  ⟨h.slot, (hlower _).trans h.bound, h.finite, h.way⟩

/-- What holds between two turns of a search, after some visits, the newest first: they are spaced, and as long as only
cheaper nodes have been visited since a visit, all leads that are cheaper come of it. -/
structure Visiting (steps : Steps (WithTop ℚ)) (slots : Finset Nat) (origin : Nat) (visits : List (Lead (WithTop ℚ)))
    (s : Search (WithTop ℚ)) : Prop where
  size : ∀ {slot}, slot ∈ slots → slot < s.costs.size
  sorted : s.leads.Pairwise fun l m => l.cost ≤ m.cost
  nodup : s.leads.Nodup
  lead : ∀ l ∈ s.leads, Known steps slots origin s l
  visit : ∀ v ∈ visits, Known steps slots origin s v ∧ v ∉ s.leads
  spaced : Spaced visits
  derived : ∀ {later v earlier}, visits = later ++ v :: earlier → (∀ z ∈ later, z.cost < v.cost) → ∀ l ∈ s.leads,
    v.cost ≤ l.cost ∨ ∃ c, Way steps v.slot l.slot c ∧ l.cost = v.cost + c

namespace Visiting

/-- Before the first turn. -/
theorem start {size : Nat} (hsize : ∀ slot ∈ slots, slot < size) (horigin : origin ∈ slots) :
    Visiting steps slots origin []
      ⟨(Array.replicate size Cost.infinite).setIfInBounds origin (Cost.ofNat 0), [⟨Cost.ofNat 0, origin⟩]⟩ where
  size hslot := by simpa using hsize _ hslot
  sorted := List.pairwise_singleton _ _
  nodup := List.nodup_singleton _
  lead l hl := by
    obtain rfl := List.mem_singleton.mp hl
    refine ⟨horigin, ?_, Cost.LawfulCost.zero_ne_top, .stay⟩
    rw [cost_start (hsize origin horigin), if_pos rfl]
  visit v hv := absurd hv List.not_mem_nil
  spaced {later between earlier x y} hvisits := by simp at hvisits
  derived {later v earlier} hvisits := by simp at hvisits

/-- A lead may be dropped. -/
theorem drop (h : Visiting steps slots origin visits s) (hleads : s.leads = lead :: rest) :
    Visiting steps slots origin visits { s with leads := rest } := by
  have hsub : ∀ {l}, l ∈ rest → l ∈ s.leads := fun hl => hleads ▸ List.mem_cons_of_mem lead hl
  have hsorted := hleads ▸ h.sorted
  have hnodup := hleads ▸ h.nodup
  exact ⟨h.size, (List.pairwise_cons.mp hsorted).2, (List.nodup_cons.mp hnodup).2,
    fun l hl => (h.lead l (hsub hl)).lower fun _ => le_rfl,
    fun v hv => ⟨(h.visit v hv).1.lower fun _ => le_rfl, fun hmem => (h.visit v hv).2 (hsub hmem)⟩, h.spaced,
    fun hvisits hcheaper l hl => h.derived hvisits hcheaper l (hsub hl)⟩

/-- A visit of the first lead keeps the visits spaced. -/
theorem spaced_cons (hfalls : ¬ Bottomless steps origin) (h : Visiting steps slots origin visits s)
    (hleads : s.leads = lead :: rest) (hfresh : lead.cost ≤ s.cost lead.slot) : Spaced (lead :: visits) := by
  intro later between earlier x y hvisits hsame
  have hlead : lead ∈ s.leads := hleads ▸ List.mem_cons_self
  cases later with
  | cons newest later =>
      obtain ⟨-, hold⟩ := List.cons.inj hvisits
      exact h.spaced hold hsame
  | nil =>
      obtain ⟨rfl, hold⟩ := List.cons.inj hvisits
      obtain ⟨hx, hgone⟩ := h.visit x (by simp [hold])
      have hle : lead.cost ≤ x.cost := hfresh.trans (hsame ▸ hx.bound)
      have hless : lead.cost < x.cost := by
        refine lt_of_le_of_ne hle fun hcost => hgone ?_
        have hequal : x = lead := by
          obtain ⟨xcost, xslot⟩ := x
          cases hcost
          cases hsame
          rfl
        exact hequal ▸ hlead
      refine ⟨hless, ?_⟩
      by_contra hcheap
      push Not at hcheap
      rcases h.derived hold hcheap lead hlead with hle' | ⟨d, hway, hcost⟩
      · exact hless.not_ge hle'
      · -- The node is found again for less than before, so the way back to it costs less than nothing.
        refine hfalls ⟨x.slot, x.cost, d, hx.way, hx.finite, hsame ▸ hway, ?_⟩
        rw [hcost] at hless
        exact (WithTop.add_lt_add_iff_left hx.finite).mp (by rwa [add_zero])

/-- The node of a lead that is no costlier than what was found is visited. -/
theorem visit_lead (hbounded : Bounded steps slots degree) (hfalls : ¬ Bottomless steps origin)
    (h : Visiting steps slots origin visits s) (hleads : s.leads = lead :: rest)
    (hfresh : lead.cost ≤ s.cost lead.slot) :
    Visiting steps slots origin (lead :: visits)
      ((steps lead.slot).foldl (Search.relax lead.cost) { s with leads := rest }) := by
  have hspaced := h.spaced_cons hfalls hleads hfresh
  have hfirst : lead ∈ s.leads := hleads ▸ List.mem_cons_self
  have hknown := h.lead lead hfirst
  obtain ⟨hrestLe, hrestSorted⟩ := List.pairwise_cons.mp (hleads ▸ h.sorted)
  obtain ⟨hnotRest, hrestNodup⟩ := List.nodup_cons.mp (hleads ▸ h.nodup)
  have hsub : ∀ {l}, l ∈ rest → l ∈ s.leads := fun hl => hleads ▸ List.mem_cons_of_mem lead hl
  have hrelaxes := relaxes_foldl lead.cost (steps lead.slot) (s := { s with leads := rest })
    fun step hstep => h.size (hbounded.closed hstep)
  generalize (steps lead.slot).foldl (Search.relax lead.cost) { s with leads := rest } = t at hrelaxes
  have hlower : ∀ slot, t.cost slot ≤ s.cost slot := hrelaxes.lower
  have hnew : ∀ {l}, l ∈ t.leads → l ∈ rest ∨ (∃ w, (l.slot, w) ∈ steps lead.slot ∧ l.cost = lead.cost + w) ∧
      t.cost l.slot ≤ l.cost ∧ l.cost < s.cost l.slot := hrelaxes.leads
  have hgone : ∀ v, Known steps slots origin s v → v ∉ rest → v ∉ t.leads := by
    intro v hv hrest hmem
    rcases hnew hmem with hmem | ⟨-, -, hless⟩
    · exact hrest hmem
    · exact hless.not_ge hv.bound
  refine ⟨fun hslot => hrelaxes.size ▸ h.size hslot, hrelaxes.sorted hrestSorted,
    hrelaxes.nodup (fun l hl => (h.lead l (hsub hl)).bound) hrestNodup, fun l hl => ?_, fun v hv => ?_, hspaced,
    fun {later v earlier} hvisits hcheaper l hl => ?_⟩
  · -- A lead has the cost of a way.
    rcases hnew hl with hl | ⟨⟨w, hstep, hcost⟩, hbound, hless⟩
    · exact (h.lead l (hsub hl)).lower hlower
    · refine ⟨hbounded.closed hstep, hbound, hless.ne_top, ?_⟩
      rw [hcost]
      exact hknown.way.step hstep
  · -- What was visited is no lead any more.
    rcases List.mem_cons.mp hv with rfl | hv
    · exact ⟨hknown.lower hlower, hgone v hknown hnotRest⟩
    · obtain ⟨hv, hnone⟩ := h.visit v hv
      exact ⟨hv.lower hlower, hgone v hv fun hmem => hnone (hsub hmem)⟩
  · -- Cheaper leads come of the visit: those that were there did, and the new ones come of the lead.
    cases later with
    | nil =>
        obtain ⟨rfl, -⟩ := List.cons.inj hvisits
        rcases hnew hl with hl | ⟨⟨w, hstep, hcost⟩, -, -⟩
        · exact .inl (hrestLe l hl)
        · refine .inr ⟨0 + w, Way.stay.step hstep, ?_⟩
          rw [hcost, zero_add]
    | cons newest later =>
        obtain ⟨rfl, hold⟩ := List.cons.inj hvisits
        obtain ⟨hless, hcheaper⟩ := List.forall_mem_cons.mp hcheaper
        rcases hnew hl with hl | ⟨⟨w, hstep, hcost⟩, -, -⟩
        · exact h.derived hold hcheaper l (hsub hl)
        · rcases h.derived hold hcheaper lead hfirst with hle | ⟨c, hway, hlead⟩
          · exact absurd hle hless.not_ge
          · refine .inr ⟨c + w, hway.step hstep, ?_⟩
            rw [hcost, hlead, add_assoc]

/-- How many turns a search may still take. -/
def turnsLeft (slots : Finset Nat) (degree : Nat) (visits : List (Lead (WithTop ℚ))) (s : Search (WithTop ℚ)) : Nat :=
  s.leads.length + degree * (2 ^ slots.card - visits.length)

/-- **A turn** keeps what holds between turns, and there are fewer turns left. -/
theorem advance (hbounded : Bounded steps slots degree) (hfalls : ¬ Bottomless steps origin)
    (h : Visiting steps slots origin visits s) (hleads : s.leads = lead :: rest) :
    ∃ visits', Visiting steps slots origin visits' (s.advance steps lead rest) ∧
      turnsLeft slots degree visits' (s.advance steps lead rest) < turnsLeft slots degree visits s := by
  have hlength : s.leads.length = rest.length + 1 := by rw [hleads, List.length_cons]
  rcases advance_cases steps s lead rest with ⟨-, hadvance⟩ | ⟨hfresh, hadvance⟩
  · rw [hadvance]
    refine ⟨visits, h.drop hleads, ?_⟩
    rw [turnsLeft, turnsLeft, hlength]
    dsimp only
    omega
  · have hnext := h.visit_lead hbounded hfalls hleads hfresh
    have hrelaxes : Relaxes lead.cost (steps lead.slot) { s with leads := rest } (s.advance steps lead rest) :=
      hadvance ▸ relaxes_foldl lead.cost _ fun step hstep => h.size (hbounded.closed hstep)
    have hgrows : (s.advance steps lead rest).leads.length ≤ rest.length + (steps lead.slot).length := hrelaxes.length
    have hdegree := hbounded.degree lead.slot
    have hmore : visits.length + 1 < 2 ^ slots.card := hnext.spaced.length_lt fun v hv => (hnext.visit v hv).1.slot
    have hleft : 2 ^ slots.card - visits.length = 2 ^ slots.card - (lead :: visits).length + 1 := by
      rw [List.length_cons]
      omega
    refine ⟨lead :: visits, hadvance ▸ hnext, ?_⟩
    rw [turnsLeft, turnsLeft, hleft, hlength, Nat.mul_add, Nat.mul_one]
    omega

end Visiting

/-! ## The end of a search -/

/-- What holds between two turns of any search: a node that was found waits as a lead at its cost, or its steps lead to
nothing new. -/
structure Attended (steps : Steps (WithTop ℚ)) (slots : Finset Nat) (origin : Nat) (s : Search (WithTop ℚ)) : Prop where
  size : ∀ {slot}, slot ∈ slots → slot < s.costs.size
  free : s.cost origin ≤ 0
  bound : ∀ l ∈ s.leads, s.cost l.slot ≤ l.cost
  attended : ∀ {slot}, s.cost slot ≠ ⊤ → ⟨s.cost slot, slot⟩ ∈ s.leads ∨
    ∀ {next w}, (next, w) ∈ steps slot → s.cost next ≤ s.cost slot + w

namespace Attended

/-- Before the first turn. -/
theorem start {size : Nat} (hsize : ∀ slot ∈ slots, slot < size) (horigin : origin ∈ slots) :
    Attended steps slots origin
      ⟨(Array.replicate size Cost.infinite).setIfInBounds origin (Cost.ofNat 0), [⟨Cost.ofNat 0, origin⟩]⟩ := by
  have hcost := cost_start (κ := WithTop ℚ) (hsize origin horigin) [⟨Cost.ofNat 0, origin⟩]
  refine ⟨fun hslot => by simpa using hsize _ hslot, ?_, fun l hl => ?_, fun {slot} hfound => .inl ?_⟩
  · rw [hcost, if_pos rfl]
    exact le_rfl
  · obtain rfl := List.mem_singleton.mp hl
    rw [hcost, if_pos rfl]
  · rw [hcost] at hfound ⊢
    split at hfound
    · rename_i heq
      rw [if_pos heq, ← heq]
      exact List.mem_singleton_self _
    · exact absurd rfl hfound

/-- A turn keeps that. -/
theorem advance (hbounded : Bounded steps slots degree) (h : Attended steps slots origin s)
    (hleads : s.leads = lead :: rest) : Attended steps slots origin (s.advance steps lead rest) := by
  have hsub : ∀ {l}, l ∈ rest → l ∈ s.leads := fun hl => hleads ▸ List.mem_cons_of_mem lead hl
  have hbound := h.bound lead (hleads ▸ List.mem_cons_self)
  rcases advance_cases steps s lead rest with ⟨hstale, hadvance⟩ | ⟨hfresh, hadvance⟩
  · rw [hadvance]
    refine ⟨h.size, h.free, fun l hl => h.bound l (hsub hl), fun {slot} hfound => ?_⟩
    refine (h.attended hfound).imp_left fun hwaits => ?_
    rcases List.mem_cons.mp (hleads ▸ hwaits) with hlead | hwaits
    · rw [← hlead] at hstale
      exact absurd hstale (lt_irrefl _)
    · exact hwaits
  · have hcost : s.cost lead.slot = lead.cost := le_antisymm hbound hfresh
    have hrelaxes := relaxes_foldl lead.cost (steps lead.slot) (s := { s with leads := rest })
      fun step hstep => h.size (hbounded.closed hstep)
    rw [← hadvance] at hrelaxes
    generalize s.advance steps lead rest = t at hrelaxes
    have hlower : ∀ slot, t.cost slot ≤ s.cost slot := hrelaxes.lower
    refine ⟨fun hslot => hrelaxes.size ▸ h.size hslot, (hlower origin).trans h.free, fun l hl => ?_,
      fun {slot} hfound => ?_⟩
    · rcases hrelaxes.leads hl with hl | ⟨-, hle, -⟩
      · exact (hlower _).trans (h.bound l (hsub hl))
      · exact hle
    · by_cases hchanged : t.cost slot = s.cost slot
      · rw [hchanged] at hfound ⊢
        by_cases hslot : slot = lead.slot
        · subst hslot
          rw [hcost]
          exact .inr hrelaxes.atMost
        · rcases h.attended hfound with hwaits | hsettled
          · rcases List.mem_cons.mp (hleads ▸ hwaits) with hlead | hwaits
            · exact absurd (congrArg Lead.slot hlead) hslot
            · exact .inl (hrelaxes.kept hwaits)
          · exact .inr fun hstep => (hlower _).trans (hsettled hstep)
      · exact .inl (hrelaxes.source hchanged).2

/-- At the end, a way on from a node that was found adds what it costs at least. -/
theorem le_of_way (h : Attended steps slots origin s) (hend : s.leads = []) {slot next : Nat} {c : WithTop ℚ}
    (hfound : s.cost slot ≠ ⊤) (hway : Way steps slot next c) : s.cost next ≤ s.cost slot + c := by
  induction hway with
  | stay =>
      have hzero : (Cost.ofNat 0 : WithTop ℚ) = 0 := rfl
      rw [hzero, add_zero]
  | @step middle next c w _ hstep ih =>
      by_cases hmiddle : s.cost middle = ⊤
      · rw [hmiddle, top_le_iff, WithTop.add_eq_top] at ih
        have htop : Cost.add c w = ⊤ := WithTop.add_eq_top.mpr (.inl (ih.resolve_left hfound))
        rw [htop, add_top]
        exact le_top
      · rcases h.attended hmiddle with hwaits | hsettled
        · rw [hend] at hwaits
          exact absurd hwaits List.not_mem_nil
        · calc s.cost next ≤ s.cost middle + w := hsettled hstep
            _ ≤ s.cost slot + c + w := by gcongr
            _ = s.cost slot + (c + w) := add_assoc _ _ _

end Attended

variable {g : Graph} {start goal : Nat} {weighted backwards : Bool}

section Searches

variable (hg : g.Arena) (hindexed : g.Indexed)
include hg hindexed

end Searches

/-- The graph of a document of this kind. -/
def loop (cost : Json) : Graph :=
  Notation.FreeForm.addedEdge (Notation.FreeForm.addedNode Graph.empty "A" [] []) 0 0 false [("w", cost)] []

end SearchLab.Graph
