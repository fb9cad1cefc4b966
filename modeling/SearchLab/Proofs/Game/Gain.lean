import SearchLab.Proofs.Game.Lasting
import SearchLab.Proofs.Game.PathCount

/-!
# What an expansion adds to the path counts

Which nodes stand above a position may be read off the stored edges (`Leads`), also behind its expansion: the edges that
are drawn then lead away from it, and bring nothing above it that was not there. A path count is a word; but as each
expansion stores more edges than it adds lines of play, no count comes round before the edges cannot be numbered.

* `lasts_countBound` — a path count is at most the number of edges, and one;
* `Gains`, `gains_of_opened` — what becomes of each path count where a position is opened;
* `expansion_gains` — this is so for any engine, and whatever else a call comes to leaves the counts alone.
-/

namespace SearchLab.Game

open Relation (ReflTransGen)

variable {π υ : Type}

namespace Tree

/-! ## No count comes round -/

/-- No path count is greater than the number of edges, and one. -/
def CountBound (t : Tree π υ) : Prop := ∀ {s e}, t.entry? s = some e → (t.pathCount s).toNat ≤ t.graph.edgeCount + 1

theorem gain_le [Position π υ] (p : π) (moves : Nat) : gain p moves ≤ moves - 1 := by
  unfold gain
  split
  · exact Nat.zero_le _
  · exact Nat.le_refl _

theorem toNat_add_toUInt64_le (count : UInt64) (n : Nat) : (count + n.toUInt64).toNat ≤ count.toNat + n := by
  rw [UInt64.toNat_add, Nat.toUInt64, UInt64.toNat_ofNat', Nat.add_mod_mod]
  exact Nat.mod_le _ _

theorem toNat_add_toUInt64 {count : UInt64} {n : Nat} (h : count.toNat + n < UInt64.size) :
    (count + n.toUInt64).toNat = count.toNat + n := by
  rw [UInt64.toNat_add, Nat.toUInt64, UInt64.toNat_ofNat', Nat.add_mod_mod]
  exact Nat.mod_eq_of_lt h

theorem Twins.edgeCount {s t : Tree π υ} (h : Twins s t) : t.graph.edgeCount = s.graph.edgeCount := by
  simpa [Graph.edgeCount] using congrArg List.length h.graph.edgeList

/-- **No path count is greater than the number of edges, and one**, at any time. -/
theorem lasts_countBound [Position π υ] : Lasts (π := π) (υ := υ) fun t => CountBound t where
  joins {p found t t'} h ht hensure {s e} he := by
    have hstarts := (composes_starts t.root).ensureNode h.toInStep hensure
    have hedges : t'.graph.edgeCount = t.graph.edgeCount := congrArg List.length (edgeList_ensureNode h.toInStep hensure)
    rw [hedges]
    cases hold : t.entry? s with
    | none =>
        rw [hstarts.new hold he]
        exact Nat.le_add_left 1 _
    | some old =>
        rw [(hstarts.old hold).2]
        exact ht hold
  grows {slot e branches moves t t'} h ht hentry hnone hgrow {s e'} he' := by
    obtain ⟨hold, hnew⟩ := pathCount_grow h hentry hgrow
    have hgain := gain_le (υ := υ) e.position moves.length
    rw [(stores_grow h.toInStep hentry hgrow).edgeCount]
    cases hs : t.entry? s with
    | none =>
        rw [hnew hs he']
        exact Nat.le_add_left 1 _
    | some old =>
        have hbound := ht hs
        by_cases habove : t.Above s slot
        · rw [(hold hs).1 habove]
          have hsum := toNat_add_toUInt64_le (t.pathCount s) (gain e.position moves.length)
          omega
        · rw [(hold hs).2 habove]
          omega
  twins {t t'} htwins ht {s e'} he' := by
    obtain ⟨e, he, _⟩ := htwins.symm.entry he'
    rw [htwins.pathCount, htwins.edgeCount]
    exact ht he

/-! ## Where edges lead -/

/-- An edge is stored from one node to another. -/
def Leads (t : Tree π υ) (a b : Nat) : Prop := ∃ e ∈ t.graph.edgeList, e.source = a ∧ e.target = b

variable [Position π υ]

/-- Where nothing bars the way, the walk back goes over all stored edges. -/
theorem Mirrors.precedes_iff_leads {t : Tree π υ} (h : t.Mirrors) : t.graph.reindex.Precedes = t.Leads := by
  funext a b
  exact propext ((h.plain.precedes_iff h.arena h.indexed).trans Graph.exists_mem_outgoing)

/-- What becomes of the path counts where a position is opened that so many moves lead from: those of the nodes above it
grow by one for each move beside the first, others stay, and new nodes start with one line of play. -/
structure Gains (s t : Tree π υ) (slot : Nat) (p : π) (moves : Nat) : Prop where
  above : ∀ node < s.size, ReflTransGen t.Leads node slot →
    t.pathCount node = s.pathCount node + (gain p moves).toUInt64 ∧
      (t.graph.edgeCount < UInt64.size → (t.pathCount node).toNat = (s.pathCount node).toNat + gain p moves)
  others : ∀ node < s.size, ¬ ReflTransGen t.Leads node slot → t.pathCount node = s.pathCount node
  new : ∀ node < t.size, s.size ≤ node → t.pathCount node = 1

/-- **What becomes of each path count** where a position is opened. -/
theorem gains_of_opened {s t : Tree π υ} (h : s.Mirrors) (ht : t.Mirrors) (hbound : s.CountBound) {slot : Nat}
    {e : Entry π υ} (he : s.entry? slot = some e) {branches : List (Action × π)} {moves : List Move}
    (hgrow : grow slot e.position branches s = .ok moves t) : Gains s t slot e.position moves.length := by
  obtain ⟨hold, hnew⟩ := pathCount_grow h he hgrow
  have habove : ∀ node, ReflTransGen t.Leads node slot ↔ s.Above node slot := by
    intro node
    rw [← ht.precedes_iff_leads]
    exact (draws_grow h.toInStep he hgrow).above_iff h ht.toInStep
  have hentry : ∀ node < s.size, ∃ old, s.entry? node = some old := fun node hnode =>
    Option.isSome_iff_exists.mp (entry?_isSome_iff.mpr hnode)
  refine ⟨fun node hnode hyes => ?_, fun node hnode hno => ?_, fun node hnode hbehind => ?_⟩
  · obtain ⟨old, hentry⟩ := hentry node hnode
    have hcount := (hold hentry).1 ((habove node).mp hyes)
    refine ⟨hcount, fun hedges => ?_⟩
    -- Where something is added, more edges are stored than lines of play are added.
    have hgain := gain_le (υ := υ) e.position moves.length
    have hstored := (stores_grow h.toInStep he hgrow).edgeCount
    have hbefore := hbound hentry
    rw [hcount]
    by_cases hzero : gain e.position moves.length = 0
    · rw [hzero]
      exact congrArg UInt64.toNat (UInt64.add_zero _)
    · exact toNat_add_toUInt64 (by omega)
  · obtain ⟨old, hentry⟩ := hentry node hnode
    exact (hold hentry).2 fun hyes => hno ((habove node).mpr hyes)
  · obtain ⟨e', he'⟩ := Option.isSome_iff_exists.mp (entry?_isSome_iff.mpr hnode)
    have hnone : s.entry? node = none := by
      rw [← Option.not_isSome_iff_eq_none, entry?_isSome_iff]
      exact Nat.not_lt.mpr hbehind
    exact hnew hnone he'

/-- One position has one line of play. -/
theorem countBound_ofRoot (p : π) : (ofRoot p : Tree π υ).CountBound := by
  intro s e he
  rw [(pathCount_ofRoot he).1]
  exact Nat.le_add_left 1 _

end Tree

namespace Session

open SearchLab.Game.Tree (Gains Leads)

variable [Position π υ] [Score υ]

/-- **What an expansion adds to the path counts.** Take any game, whether its moves lead to the same positions, or back, or
twice to one position, and the engine after any sequence of expansions, other roots, budgets, sessions and ticks that
begins with nothing known of the game; the rules may fail at any call. The engine is asked to expand a node.

If that node was not expanded and now is, the expansion shows `m` moves. Let `d` be nothing for a terminal position, and
else the number of moves beside the first. Then the path count of each node that was there and from which stored edges,
the new ones among them, lead to the expanded node, or which is that node, grows by `d`. The sum is one of words; but as
long as there are fewer edges than words can number, it is also the sum of the numbers. The counts of all other nodes
stay as they were, and the nodes that are new have a count of one.

If the node was expanded before, if it is not expanded because the budget is used up, or if the call fails, all path
counts stay as they were.

The walk that raises the counts comes to each node above the expanded one once, and to no other. On every tree, in step
or not, it ends: it comes to no more than one node beside those of the graph. -/
theorem expansion_gains {start : Rules π} {fresh : Engine π υ} (hfresh : Engine.ofRules start = .ok fresh) (depth : Nat)
    (configuration : Configuration) (steps : List (Step π)) (rules : Rules π) (slot : Nat) :
    let e := (play steps (ofEngine fresh depth configuration)).engine
    (∀ x e', Engine.expandNode rules slot e = .ok x e' → e.tree.isExpanded slot = false →
      e'.tree.isExpanded slot = true → ∃ p, e.tree.position? slot = some p ∧
        let d := if Position.isTerminal p then 0 else x.moves.length - 1
        (∀ node < e.tree.size, ReflTransGen e'.tree.Leads node slot →
          e'.tree.pathCount node = e.tree.pathCount node + d.toUInt64 ∧
            (e'.tree.graph.edgeCount < 2 ^ 64 →
              (e'.tree.pathCount node).toNat = (e.tree.pathCount node).toNat + d)) ∧
        (∀ node < e.tree.size, ¬ ReflTransGen e'.tree.Leads node slot →
          e'.tree.pathCount node = e.tree.pathCount node) ∧
        ∀ node < e'.tree.size, e.tree.size ≤ node → e'.tree.pathCount node = 1) ∧
    (∀ x e', Engine.expandNode rules slot e = .ok x e' →
      e.tree.isExpanded slot = true ∨ e'.tree.isExpanded slot = false →
        ∀ node, e'.tree.pathCount node = e.tree.pathCount node) ∧
    (∀ err e', Engine.expandNode rules slot e = .error err e' →
      ∀ node, e'.tree.pathCount node = e.tree.pathCount node) ∧
    (e.tree.graph.ancestors slot).Nodup ∧
    (∀ node, node ∈ e.tree.graph.ancestors slot ↔ ReflTransGen e.tree.Leads node slot) ∧
    ∀ (t : Tree π υ) (node : Nat), (t.graph.ancestors node).length ≤ t.graph.nodeList.length + 1 := by
  intro e
  have hbegun := mirrors_ofEngine hfresh depth configuration
  have hmirrors : e.tree.Mirrors := (mirrors_play steps hbegun).tree
  have hbound : e.tree.CountBound := by
    refine Tree.lasts_countBound.play steps hbegun ?_
    obtain ⟨p, _, rfl⟩ := Engine.ofRules_spec hfresh
    exact Tree.countBound_ofRoot p
  have houtcome := Engine.expandNode_outcome rules slot (e := e) hmirrors.toInStep
  have hwalk : ∀ node, node ∈ e.tree.graph.ancestors slot ↔ ReflTransGen e.tree.Leads node slot := by
    intro node
    rw [← hmirrors.precedes_iff_leads]
    exact Graph.mem_ancestors hmirrors.arena hmirrors.indexed
  refine ⟨fun x e' hcall hclosed hopen => ?_, fun x e' hcall hother => ?_, fun err e' hcall => ?_,
    Graph.nodup_ancestors hmirrors.arena slot, hwalk, fun t node => t.graph.length_ancestors_le node⟩
  · rw [hcall] at houtcome
    cases houtcome with
    | kept | refused => exact absurd (hclosed.symm.trans hopen) (by simp)
    | @opened entry _ branches moves tree hentry hmoves _ _ hgrow htree hopens =>
        have hgains := Tree.gains_of_opened hmirrors (hmirrors.grow hentry hmoves hgrow htree hopens) hbound hentry hgrow
        exact ⟨entry.position, by rw [Tree.position?, hentry, Option.map_some], hgains.above, hgains.others, hgains.new⟩
  · rw [hcall] at houtcome
    cases houtcome with
    | kept | refused => exact fun _ => rfl
    | opened hentry hmoves _ _ _ htree hopens =>
        have hbefore : e.tree.isExpanded slot = false := by rw [hmirrors.expanded hentry, hmoves, Option.isSome_none]
        have hbehind := htree.expanded (hopens.own hentry)
        rcases hother with hother | hother
        · exact absurd (hother.symm.trans hbefore) (by simp)
        · exact absurd (hother.symm.trans hbehind) (by simp)
  · rw [hcall] at houtcome
    cases houtcome with
    | missing | failed => exact fun _ => rfl

/-- The start of a game with two moves is expanded: two lines of play go through it, and one through what is new. -/
theorem expansion_gains_sample :
    let rules := Table.twoPly.rules none
    ∃ (fresh e' : Engine Place Float) (x : Expansion), Engine.ofRules rules = .ok fresh ∧
      Engine.expandNode rules fresh.tree.root fresh = .ok x e' ∧ x.moves.length = 2 ∧
      e'.tree.pathCount fresh.tree.root = 2 ∧
      ∀ node < e'.tree.size, fresh.tree.size ≤ node → e'.tree.pathCount node = 1 := by
  intro rules
  obtain ⟨fresh, hfresh⟩ : ∃ fresh : Engine Place Float, Engine.ofRules rules = .ok fresh := ⟨_, rfl⟩
  have hgains := expansion_gains hfresh 1 {} [] rules fresh.tree.root
  obtain ⟨p, hp, rfl⟩ := Engine.ofRules_spec hfresh
  obtain rfl : Table.twoPly.places[0] = p := Except.ok.inj hp
  obtain ⟨hstep, hroot, _⟩ := Tree.ofRoot_spec (υ := Float) Table.twoPly.places[0]
  generalize hfirst : (Tree.ofRoot Table.twoPly.places[0] : Tree Place Float) = first at *
  have houtcome := Engine.expandNode_outcome rules first.root (e := { tree := first }) hstep
  generalize hcall : Engine.expandNode rules first.root { tree := first } = r at houtcome
  cases houtcome with
  | missing hentry => cases hroot.symm.trans hentry
  | kept hentry hnot | refused hentry _ hnot | failed hentry _ _ hnot =>
      cases hroot.symm.trans hentry
      cases hnot
  | @opened entry left branches moves tree hentry _ _ hbranches _ htree hopens =>
      obtain rfl := Option.some.inj (hroot.symm.trans hentry)
      cases hbranches
      have hlength : moves.length = 2 := hopens.follows.length_eq.symm
      have hbefore : first.isExpanded first.root = false := hstep.expanded hroot
      have hbehind : tree.isExpanded first.root = true := htree.expanded (hopens.own hroot)
      obtain ⟨p, hp, habove, _, hnew⟩ := hgains.1 _ _ hcall hbefore hbehind
      obtain rfl : Table.twoPly.places[0] = p := by
        have hposition : first.position? first.root = some p := hp
        rw [Tree.position?, hroot, Option.map_some] at hposition
        exact Option.some.inj hposition
      have hcount : tree.pathCount first.root = first.pathCount first.root + _ :=
        (habove first.root (Tree.lt_size hroot) .refl).1
      have hone : first.pathCount first.root = 1 := by
        subst hfirst
        exact (Tree.pathCount_ofRoot hroot).1
      refine ⟨_, _, _, hfresh, hcall, hlength, ?_, hnew⟩
      rw [hcount, hone, hlength]
      decide

end Session

end SearchLab.Game
