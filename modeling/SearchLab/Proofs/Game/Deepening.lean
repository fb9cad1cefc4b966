import SearchLab.Proofs.Game.Engine
import SearchLab.Proofs.Game.Play
import SearchLab.Proofs.Game.Tally

/-!
# The account of a deepening search

The account of a pass is stated for all trees that the present one can grow into: the expansions that it has made, and
what is still to be met from its stack, are what is to be met from the root. As nodes that are expanded keep their moves,
each turn keeps the account. When the stack is empty the account says that all nodes down to the limit are expanded, and
how many were met; so a pass that finds no more than the one before it has left nothing behind.

* `Underway` — a search on its way;
* `seek_spec`, `step_spec` — what a turn and a step keep, and by what they come closer to the end;
* `Searching.settled` — a search that is done has left nothing behind.
-/

namespace SearchLab.Game

open SearchLab.Game.Tree (Grows Opens)

variable {π υ : Type} [Position π υ]

namespace Deepening

variable {t t' : Tree π υ} {slot : Nat}

/-! ## Trees that grow -/

theorem isInner_of_grows (h : Grows t t') (hlive : (t.entry? slot).isSome = true) : isInner t' slot = isInner t slot := by
  obtain ⟨e, he⟩ := Option.isSome_iff_exists.mp hlive
  obtain ⟨e', he', hposition, _⟩ := h.stays he
  simp [isInner, Tree.position?, he, he', hposition]

omit [Position π υ] in
theorem children?_of_grows (h : Grows t t') {children : List Nat} (hkept : t.children? slot = some children) :
    t'.children? slot = some children := by
  obtain ⟨moves, hmoves, hchildren⟩ := Option.map_eq_some_iff.mp hkept
  obtain ⟨e, he, hsome⟩ := Option.bind_eq_some_iff.mp hmoves
  obtain ⟨e', he', _, hstays⟩ := h.stays he
  simp [Tree.children?, he', hstays moves hsome, hchildren]

/-- A node of the tree that lines of play from the root can come to. -/
structure Met (rules : Rules π) (G : Set π) (origin : String) (t : Tree π υ) (slot : Nat) : Prop where
  live : (t.entry? slot).isSome = true
  leads : Relation.ReflTransGen (rules.Leads G) origin (t.positionId slot)

variable {rules : Rules π} {G : Set π} {origin : String}

theorem positionId_of_grows (h : Grows t t') (hlive : (t.entry? slot).isSome = true) :
    t'.positionId slot = t.positionId slot := by
  obtain ⟨e, he⟩ := Option.isSome_iff_exists.mp hlive
  obtain ⟨e', he', hposition, _⟩ := h.stays he
  rw [Tree.positionId_eq he, Tree.positionId_eq he', hposition]

theorem Met.grows (h : Met rules G origin t slot) (hgrows : Grows t t') : Met rules G origin t' slot := by
  obtain ⟨e, he⟩ := Option.isSome_iff_exists.mp h.live
  obtain ⟨e', he', _⟩ := hgrows.stays he
  refine ⟨by rw [he', Option.isSome_some], ?_⟩
  rw [positionId_of_grows hgrows h.live]
  exact h.leads

/-- The moves of a node at which the game goes on are moves of the game. -/
theorem leads_child (hstep : t.InStep) (hobeys : t.Obeys rules G) (hinner : isInner t slot = true) {children : List Nat}
    (hkept : t.children? slot = some children) {c : Nat} (hc : c ∈ children) :
    (t.entry? c).isSome = true ∧ rules.Leads G (t.positionId slot) (t.positionId c) := by
  obtain ⟨e, he, hopen⟩ := isInner_iff.mp hinner
  obtain ⟨moves, hmoves, rfl⟩ := Option.map_eq_some_iff.mp hkept
  rw [he, Option.bind_some] at hmoves
  obtain ⟨m, hm, rfl⟩ := List.mem_map.mp hc
  obtain ⟨e', he', _⟩ := (hstep.lookup _ _).mp (hstep.targets he hmoves m hm)
  refine ⟨by rw [he', Option.isSome_some], hobeys.leads hstep ⟨e, he, m, ?_, rfl⟩⟩
  simpa [Entry.replies, hopen, hmoves] using hm

theorem Met.child (h : Met rules G origin t slot) (hstep : t.InStep) (hobeys : t.Obeys rules G)
    (hinner : isInner t slot = true) {children : List Nat} (hkept : t.children? slot = some children) {c : Nat}
    (hc : c ∈ children) : Met rules G origin t c := by
  obtain ⟨hlive, hleads⟩ := leads_child hstep hobeys hinner hkept hc
  exact ⟨hlive, h.leads.tail hleads⟩

/-! ## The account of a pass -/

/-- What is still to be met from a node on the present line. -/
def Frame.tally (seen unseen : Nat) (t : Tree π υ) (limit : Nat) (f : Frame) : Nat :=
  match f.pending with
  | none => Deepening.tally seen unseen t (limit - f.depth) f.slot
  | some children => (children.map (Deepening.tally seen unseen t (limit - (f.depth + 1)))).sum

/-- What is still to be met from the present line. -/
def pending (seen unseen : Nat) (t : Tree π υ) (limit : Nat) (stack : List Frame) : Nat :=
  (stack.map (Frame.tally seen unseen t limit)).sum

/-- A search on its way. -/
structure Underway (rules : Rules π) (G : Set π) (origin : String) (t : Tree π υ) (d : Deepening) : Prop where
  root : Met rules G origin t d.root
  met : ∀ f ∈ d.stack, Met rules G origin t f.slot ∧ ∀ c ∈ f.pending.getD [], Met rules G origin t c
  account : ∀ {t'}, Grows t t' → ∀ seen unseen,
    seen * d.found + pending seen unseen t' d.limit d.stack = tally seen unseen t' d.limit d.root
  best : ∀ {b}, d.best = some b → 0 < d.limit ∧ ∀ {t'}, Grows t t' → tally 1 0 t' (d.limit - 1) d.root = b

/-- A search at the start of its first pass. -/
theorem underway_ofRoot {root : Nat} (h : Met rules G origin t root) (limit : Nat) :
    Underway rules G origin t (ofRoot root limit) where
  root := h
  met := by simpa [ofRoot] using h
  account _ seen unseen := by simp [ofRoot, pending, Frame.tally]
  best := by simp [ofRoot]

/-- The search has come to a node that is to be expanded, or it is done. -/
def Found (t : Tree π υ) (d : Deepening) : Option Nat → Prop
  | none => d.stack = [] ∧ d.isSettled = true
  | some slot => isInner t slot = true ∧ ∃ depth below, d.stack = ⟨slot, depth, none⟩ :: below ∧ depth < d.limit

/-- From a bound on, a limit shows no more than the one before it. -/
def Flat (t : Tree π υ) (bound root : Nat) : Prop :=
  ∀ limit, bound ≤ limit → tally 1 0 t limit root ≤ tally 1 0 t (limit - 1) root

omit [Position π υ] in
/-- The limits of a search do not go beyond a bound, and the one of its first pass stays below it. -/
def Bounded (bound : Nat) (d : Deepening) : Prop := d.limit ≤ bound ∧ (d.best = none → d.limit < bound)

namespace Underway

variable {d : Deepening}

/-- A pass that has come to its end knows how many nodes there are down to its limit, and that all are expanded. -/
theorem finished (h : Underway rules G origin t d) (hs : d.stack = []) (hgrows : Grows t t') :
    tally 1 0 t' d.limit d.root = d.found ∧ tally 0 1 t' d.limit d.root = 0 := by
  have hseen := h.account hgrows 1 0
  have hunseen := h.account hgrows 0 1
  simp only [hs, pending, List.map_nil, List.sum_nil] at hseen hunseen
  omega

theorem nextPass (h : Underway rules G origin t d) (hs : d.stack = []) : Underway rules G origin t d.nextPass where
  root := h.root
  met := by simpa [Deepening.nextPass] using h.root
  account _ seen unseen := by simp [Deepening.nextPass, pending, Frame.tally]
  best {b} hb := by
    obtain rfl := Option.some.inj hb
    exact ⟨Nat.succ_pos _, fun hgrows => (h.finished hs hgrows).1⟩

/-- Only a pass that has found more than the one before it is followed by another one. -/
theorem bounded_nextPass (h : Underway rules G origin t d) (hs : d.stack = []) (hsettled : ¬ d.isSettled = true)
    {bound : Nat} (hbound : Bounded bound d) (hflat : Flat t bound d.root) : Bounded bound d.nextPass := by
  have hlimit : d.limit < bound := by
    cases hb : d.best with
    | none => exact hbound.2 hb
    | some b =>
        by_contra hdeep
        have hfew := hflat d.limit (Nat.le_of_not_lt hdeep)
        rw [(h.finished hs (.refl t)).1, (h.best hb).2 (.refl t)] at hfew
        exact hsettled (by simpa [isSettled, hb] using hfew)
  exact ⟨hlimit, fun hnone => by cases hnone⟩

/-- The stack can be changed for another one from which as much is met. -/
theorem restack (h : Underway rules G origin t d) {stack : List Frame}
    (hmet : ∀ f ∈ stack, Met rules G origin t f.slot ∧ ∀ c ∈ f.pending.getD [], Met rules G origin t c)
    (hsame : ∀ {t'}, Grows t t' → ∀ seen unseen,
      pending seen unseen t' d.limit stack = pending seen unseen t' d.limit d.stack) :
    Underway rules G origin t { d with stack } where
  root := h.root
  met := hmet
  account hgrows seen unseen := by
    rw [hsame hgrows]
    exact h.account hgrows seen unseen
  best := h.best

end Underway

/-- **What a turn keeps**: a search on its way comes to a node that is to be expanded, or to its end. It finds nothing
unless it begins another pass. -/
theorem seek_spec {d : Deepening} (h : Underway rules G origin t d) :
    let found := seek (isInner t) d
    Underway rules G origin t found.2 ∧ Found t found.2 found.1 ∧ found.2.root = d.root ∧
      (found.2.limit = d.limit ∧ found.2.found = d.found ∨ d.limit < found.2.limit) ∧
      ∀ bound, Bounded bound d → Flat t bound d.root → Bounded bound found.2 := by
  -- One case for each turn that `seek` can take.
  fun_induction seek (isInner t) d with
  | case1 d hs hsettled => exact ⟨h, ⟨hs, hsettled⟩, rfl, .inl ⟨rfl, rfl⟩, fun _ hbound _ => hbound⟩
  | case2 d hs hsettled ih =>
      obtain ⟨hway, hfound, hroot, hlimit, hbounded⟩ := ih (h.nextPass hs)
      refine ⟨hway, hfound, hroot, .inr ?_, fun bound hbound hflat =>
        hbounded bound (h.bounded_nextPass hs hsettled hbound hflat) hflat⟩
      have hnext : d.nextPass.limit = d.limit + 1 := rfl
      omega
  | case3 d slot depth below hs hopen =>
      simp only [Bool.and_eq_true, decide_eq_true_eq] at hopen
      exact ⟨h, ⟨hopen.1, depth, below, hs, hopen.2⟩, rfl, .inl ⟨rfl, rfl⟩, fun _ hbound _ => hbound⟩
  | case4 d slot depth below hs hclosed ih =>
      refine ih (h.restack ?_ ?_)
      · intro f hf
        exact h.met f (hs ▸ List.mem_cons_of_mem _ hf)
      · intro t' hgrows seen unseen
        have hzero : tally seen unseen t' (d.limit - depth) slot = 0 := by
          cases hinner : isInner t slot with
          | false =>
              have hlive := (h.met ⟨slot, depth, none⟩ (hs ▸ List.mem_cons_self)).1.live
              exact tally_of_ended ((isInner_of_grows hgrows hlive).trans hinner)
          | true =>
              have hdeep : ¬ depth < d.limit := by simpa [hinner] using hclosed
              rw [Nat.sub_eq_zero_of_le (Nat.le_of_not_lt hdeep)]
              rfl
        simp [hs, pending, Frame.tally, hzero]
  | case5 d slot depth below hs ih =>
      refine ih (h.restack ?_ ?_)
      · intro f hf
        exact h.met f (hs ▸ List.mem_cons_of_mem _ hf)
      · intro t' hgrows seen unseen
        simp [hs, pending, Frame.tally]
  | case6 d slot depth child rest below hs ih =>
      refine ih (h.restack ?_ ?_)
      · have htop := h.met ⟨slot, depth, some (child :: rest)⟩ (hs ▸ List.mem_cons_self)
        intro f hf
        rcases List.mem_cons.mp hf with rfl | hf
        · exact ⟨htop.2 child (by simp), by simp⟩
        · rcases List.mem_cons.mp hf with rfl | hf
          · exact ⟨htop.1, fun c hc => htop.2 c (by simpa using .inr hc)⟩
          · exact h.met f (hs ▸ List.mem_cons_of_mem _ hf)
      · intro t' hgrows seen unseen
        simp [hs, pending, Frame.tally, Nat.add_assoc]

/-- The account when the node on top of the stack was expanded. -/
theorem Underway.opened {d : Deepening} (h : Underway rules G origin t d) (hgrows : Grows t t')
    (hinner : isInner t slot = true) {depth : Nat} {below : List Frame} (hs : d.stack = ⟨slot, depth, none⟩ :: below)
    (hdepth : depth < d.limit) {children : List Nat} (hkept : t'.children? slot = some children)
    (hmet : ∀ c ∈ children, Met rules G origin t' c) : Underway rules G origin t' (d.opened children) := by
  have hopened : d.opened children =
      { d with found := d.found + 1, stack := ⟨slot, depth, some children⟩ :: below } := by
    rw [Deepening.opened, hs]
  have hslot := (h.met ⟨slot, depth, none⟩ (hs ▸ List.mem_cons_self)).1
  rw [hopened]
  refine ⟨h.root.grows hgrows, ?_, ?_, ?_⟩
  · intro f hf
    rcases List.mem_cons.mp hf with rfl | hf
    · exact ⟨hslot.grows hgrows, by simpa using hmet⟩
    · obtain ⟨hf', hchildren⟩ := h.met f (hs ▸ List.mem_cons_of_mem _ hf)
      exact ⟨hf'.grows hgrows, fun c hc => (hchildren c hc).grows hgrows⟩
  · intro t'' hlater seen unseen
    have haccount := h.account (hgrows.trans hlater) seen unseen
    have hinner' : isInner t'' slot = true := (isInner_of_grows (hgrows.trans hlater) hslot.live).trans hinner
    have hdeep : d.limit - depth = d.limit - (depth + 1) + 1 := by omega
    simp only [hs, pending, List.map_cons, List.sum_cons, Frame.tally] at haccount ⊢
    rw [hdeep, tally_of_kept hinner' (children?_of_grows hlater hkept)] at haccount
    rw [Nat.mul_succ]
    omega
  · intro b hb
    obtain ⟨hlimit, hbest⟩ := h.best hb
    exact ⟨hlimit, fun hlater => hbest (hgrows.trans hlater)⟩

/-! ## Steps -/

/-- Within a budget, and with rules that do not fail, a position shows its moves whenever it is asked for them. -/
theorem expandNode_of_funded (hwithin : rules.Within G) (hrules : ∀ p ∈ G, ∃ bs, rules.branches p = .ok bs)
    {e : Engine π υ} (hstep : e.tree.InStep) (hobeys : e.tree.Obeys rules G) (hfunds : e.expansions.isExhausted = false)
    (hlive : (e.tree.entry? slot).isSome = true) :
    ∃ x e', Engine.expandNode rules slot e = .ok x e' ∧ e'.tree.InStep ∧ e'.tree.Obeys rules G ∧ Grows e.tree e'.tree ∧
      e'.tree.children? slot = some (x.moves.map Move.slot) ∧
      (e'.tree = e.tree ∨ e.tree.children? slot = none) := by
  have houtcome := Engine.expandNode_outcome rules slot hstep
  have hobeys' := houtcome.obeys hobeys hwithin
  obtain ⟨hstep', hgrows⟩ := houtcome.inStep_grows hstep
  generalize Engine.expandNode rules slot e = r at houtcome hobeys' hstep' hgrows
  cases houtcome with
  | missing hentry => simp [hentry] at hlive
  | kept hentry hmoves =>
      exact ⟨_, _, rfl, hstep', hobeys', hgrows, by simp [Tree.children?, hentry, hmoves], .inl rfl⟩
  | refused _ _ hspent =>
      rw [Budget.spend?_eq_none_iff, hfunds] at hspent
      cases hspent
  | failed hentry _ _ hfails =>
      obtain ⟨bs, hbs⟩ := hrules _ (hobeys.position hentry)
      cases hbs.symm.trans hfails
  | opened hentry hmoves _ _ _ _ hopens =>
      exact ⟨_, _, rfl, hstep', hobeys', hgrows, by simp [Tree.children?, hopens.own hentry],
        .inr (by simp [Tree.children?, hentry, hmoves])⟩

/-- A search on its way, with the engine that it works on. -/
structure Searching (rules : Rules π) (G : Set π) (origin : String) (s : Deepening × Engine π υ) : Prop where
  inStep : s.2.tree.InStep
  obeys : s.2.tree.Obeys rules G
  underway : Underway rules G origin s.2.tree s.1

/-- What a step has done: the search has gone deeper, or it has met one node more. A tree that has changed has one more
node that is expanded. -/
structure Onward (rules : Rules π) (G : Set π) (origin : String) (s s' : Deepening × Engine π υ) : Prop where
  root : s'.1.root = s.1.root
  grows : Grows s.2.tree s'.2.tree
  tree : s'.2.tree = s.2.tree ∨ ∃ slot, Met rules G origin s.2.tree slot ∧ s.2.tree.children? slot = none ∧
    (s'.2.tree.children? slot).isSome = true
  search : s'.1.limit = s.1.limit ∧ s'.1.found = s.1.found + 1 ∨ s.1.limit < s'.1.limit
  bounded : ∀ bound, Bounded bound s.1 → Flat s.2.tree bound s.1.root → Bounded bound s'.1

/-- **What a step does**, within a budget and with rules that do not fail: the search is done, or it goes on. -/
theorem step_spec (hwithin : rules.Within G) (hrules : ∀ p ∈ G, ∃ bs, rules.branches p = .ok bs)
    {s : Deepening × Engine π υ} (h : Searching rules G origin s) (hfunds : s.2.expansions.isExhausted = false) :
    (∃ d, step rules s = .ok none (d, s.2) ∧ Searching rules G origin (d, s.2) ∧ d.root = s.1.root ∧ d.stack = [] ∧
      d.isSettled = true) ∨
    ∃ x s', step rules s = .ok (some x) s' ∧ Searching rules G origin s' ∧ Onward rules G origin s s' := by
  obtain ⟨d, e⟩ := s
  obtain ⟨hway, hfound, hroot, hlimit, hbounded⟩ := seek_spec h.underway
  cases hseek : seek (isInner e.tree) d with
  | mk found d' =>
      rw [hseek] at hway hfound hroot hlimit hbounded
      cases found with
      | none =>
          exact .inl ⟨d', by simp only [step, hseek], ⟨h.inStep, h.obeys, hway⟩, hroot, hfound.1, hfound.2⟩
      | some slot =>
          obtain ⟨hinner, depth, below, hs, hdepth⟩ := hfound
          have hmet := (hway.met ⟨slot, depth, none⟩ (hs ▸ List.mem_cons_self)).1
          obtain ⟨x, e', hexpand, hstep', hobeys', hgrows, hkept, htree⟩ :=
            expandNode_of_funded hwithin hrules h.inStep h.obeys hfunds hmet.live
          have hinner' : isInner e'.tree slot = true := (isInner_of_grows hgrows hmet.live).trans hinner
          have hchildren := fun c hc => (hmet.grows hgrows).child hstep' hobeys' hinner' hkept (c := c) hc
          have hopened : d'.opened (x.moves.map Move.slot) =
              { d' with found := d'.found + 1, stack := ⟨slot, depth, some (x.moves.map Move.slot)⟩ :: below } := by
            rw [Deepening.opened, hs]
          refine .inr ⟨x, (d'.opened (x.moves.map Move.slot), e'), by simp only [step, hseek, hexpand], ?_, ?_⟩
          · exact ⟨hstep', hobeys', hway.opened hgrows hinner hs hdepth hkept hchildren⟩
          · refine ⟨?_, hgrows, ?_, ?_, ?_⟩
            · rw [hopened]
              exact hroot
            · refine htree.imp_right fun hnone => ⟨slot, hmet, hnone, ?_⟩
              rw [hkept, Option.isSome_some]
            · rw [hopened]
              exact hlimit.imp_left fun hsame => ⟨hsame.1, congrArg (· + 1) hsame.2⟩
            · rw [hopened]
              exact hbounded

/-- A search that is done has left nothing behind. -/
theorem Searching.settled {d : Deepening} {e : Engine π υ} (h : Searching rules G origin (d, e)) (hs : d.stack = [])
    (hsettled : d.isSettled = true) : ∃ depth, Settled e.tree depth d.root := by
  obtain ⟨b, hb, hfew⟩ := (Option.any_eq_true _ _).mp hsettled
  obtain ⟨hlimit, hbest⟩ := h.underway.best hb
  obtain ⟨hseen, hunseen⟩ := h.underway.finished hs (.refl e.tree)
  have hprevious := hbest (.refl e.tree)
  have hdepth : d.limit - 1 + 1 = d.limit := Nat.sub_add_cancel hlimit
  refine ⟨d.limit - 1, ?_, ?_⟩
  · rw [hdepth]
    exact hunseen
  · rw [hdepth, hseen, hprevious]
    simpa using hfew

end Deepening

end SearchLab.Game
