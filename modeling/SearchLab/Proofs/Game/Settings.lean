import SearchLab.Game.Inspect
import SearchLab.Proofs.Game.Play
import SearchLab.Proofs.Game.Engine
import SearchLab.Proofs.Graph.Settings
import SearchLab.Proofs.Graph.Upkeep
import SearchLab.Proofs.Replay.Fidelity

/-!
# What is set of a position is read back, too

All that can be set of a position is a trigger, and it is read as the mark of its node. It is accepted also where the
budget is used up: then nothing is done, and the trigger can be pulled again later.

* `Engine.Reachable` — the engines that calls and searches lead to;
* `Engine.read_of_setPropertyAt` — the trigger after it was pulled;
* `settings_are_read_back` — whatever is set, of a graph and of a position;
* `settings_not_read_back` — the exceptions.
-/

namespace SearchLab

namespace Game

open SearchLab.Graph (Mutated)

variable {π υ : Type} [Position π υ]

omit [Position π υ] in
/-- A tree in which the mark of a node was taken away from outside. -/
def Tree.unmarked (t : Tree π υ) (slot : Nat) : Tree π υ :=
  { t with graph := t.graph.modifyNode slot fun n => { n with data := n.data.set "expanded" (.bool false) } }

namespace Engine

/-- The engines that calls and searches lead to. Their trees may be drawn and edited besides, but only they themselves
add nodes and mark them as expanded. -/
inductive Reachable : Engine π υ → Prop
  | fresh {rules : Rules π} {e : Engine π υ} (h : ofRules rules = .ok e) : Reachable e
  | call {e : Engine π υ} (h : Reachable e) (call : Call π) : Reachable (call.run e)
  | ensureNode {e : Engine π υ} (h : Reachable e) (p : π) :
      Reachable { e with tree := (Tree.ensureNode p).after e.tree }
  | setRoot {e : Engine π υ} (h : Reachable e) (p : π) : Reachable { e with tree := (Tree.setRoot p).after e.tree }
  | settle {e : Engine π υ} (h : Reachable e) (v : Verdict υ) : Reachable { e with tree := e.tree.settle v }
  | resetUtilities {e : Engine π υ} (h : Reachable e) : Reachable { e with tree := e.tree.resetUtilities }
  | highlight {e : Engine π υ} (h : Reachable e) (slot : Nat) (line : List Move) :
      Reachable { e with tree := e.tree.highlight slot line }
  | counters {e : Engine π υ} (h : Reachable e) (steps : Budget) (grown : Bool) : Reachable { e with steps, grown }
  | edit {e : Engine π υ} (h : Reachable e) {graph : Graph} (hgraph : Mutated e.tree.graph graph)
      (hsize : graph.nodes.size = e.tree.graph.nodes.size) (hslots : ∀ id, graph.slot? id = e.tree.graph.slot? id)
      (hmarks : ∀ slot, { e.tree with graph }.isExpanded slot = e.tree.isExpanded slot) :
      Reachable { e with tree := { e.tree with graph } }

theorem Reachable.inStep {e : Engine π υ} (h : e.Reachable) : e.tree.InStep := by
  induction h with
  | fresh hfresh =>
      obtain ⟨p, _, rfl⟩ := ofRules_spec hfresh
      exact (Tree.ofRoot_spec p).1
  | call _ call ih => exact (call.inStep_grows ih).1
  | @ensureNode e _ p ih =>
      obtain ⟨slot, isNew, tree, hensure, htree, -⟩ := Tree.ensureNode_spec ih p
      exact (Edit.after_ok hensure).symm ▸ htree
  | @setRoot e _ p ih =>
      obtain ⟨root, tree, hroot, htree, -⟩ := Tree.setRoot_spec ih p
      exact (Edit.after_ok hroot).symm ▸ htree
  | settle _ v ih => exact (Tree.settle_spec ih v).1
  | resetUtilities _ ih => exact (Tree.resetUtilities_spec ih).1
  | highlight _ slot line ih => exact (Tree.highlight_spec ih slot line).1
  | counters _ _ _ ih => exact ih
  | edit _ hgraph hsize hslots hmarks ih => exact ih.mutated hgraph hsize hslots hmarks

variable [Score υ]

/-- The trigger of a position is read as the mark of its node. -/
theorem read_expandTrigger {e : Engine π υ} {slot : Nat} {entry : Entry π υ} (h : e.tree.entry? slot = some entry) :
    Property.read (e.propertiesAt slot) expandTrigger = .ok (.bool (e.tree.isExpanded slot)) := by
  cases hend : Position.isTerminal entry.position <;>
    simp [Property.read, Property.find?, propertiesAt, endProperties, expandTrigger, h, hend]

/-- Where a trigger is accepted, the position in the slot is expanded. -/
theorem expandNode_of_setPropertyAt {rules : Rules π} {slot : Nat} {value : Json} {e e' : Engine π υ}
    (h : setPropertyAt rules slot expandTrigger value e = .ok true e') : ∃ x, expandNode rules slot e = .ok x e' := by
  unfold setPropertyAt at h
  split at h
  · cases h
  · cases h
  · rw [if_pos rfl] at h
    split at h
    · cases h
    · rename_i x e₁ hexpand
      cases h
      exact ⟨x, hexpand⟩

/-- The trigger of a position is accepted where its expansion does not fail. -/
theorem setPropertyAt_of_expandNode {rules : Rules π} {slot : Nat} {e e' : Engine π υ} {entry : Entry π υ} {x : Expansion}
    (hentry : e.tree.entry? slot = some entry) (hexpand : expandNode rules slot e = .ok x e') :
    setPropertyAt rules slot expandTrigger (.bool true) e = .ok true e' := by
  have hcheck : ∃ p, Property.checkUpdate (e.propertiesAt slot) expandTrigger (.bool true) = .ok (some p) := by
    cases hend : Position.isTerminal entry.position <;>
      simp [Property.checkUpdate, Property.refusal?, Property.find?, propertiesAt, endProperties, expandTrigger, hentry,
        hend, PropertyType.accepts, Json.isTruthy]
  obtain ⟨p, hp⟩ := hcheck
  unfold setPropertyAt
  rw [hp]
  simp only [if_true, hexpand]

/-- The trigger after it was pulled: the position is expanded, unless it is new and the budget is used up. -/
theorem read_of_setPropertyAt {rules : Rules π} {slot : Nat} {value : Json} {e e' : Engine π υ} (h : e.tree.InStep)
    (hset : setPropertyAt rules slot expandTrigger value e = .ok true e') :
    Property.read (e'.propertiesAt slot) expandTrigger =
      .ok (.bool (e.tree.isExpanded slot || !e.expansions.isExhausted)) := by
  obtain ⟨x, hexpand⟩ := expandNode_of_setPropertyAt hset
  have houtcome := hexpand ▸ expandNode_outcome rules slot h
  cases houtcome with
  | kept hentry hmoves => rw [read_expandTrigger hentry, h.expanded hentry, hmoves, Option.isSome_some, Bool.true_or]
  | refused hentry hmoves hspent =>
      rw [read_expandTrigger hentry, h.expanded hentry, hmoves, (Budget.spend?_eq_none_iff _).mp hspent]
      rfl
  | opened hentry hmoves hspend _ _ htree hopens =>
      have hleft : e.expansions.isExhausted = false := by
        rw [← Bool.not_eq_true, ← Budget.spend?_eq_none_iff, hspend]
        exact Option.some_ne_none _
      have hown := hopens.own hentry
      rw [read_expandTrigger (e := { e with tree := _, expansions := _, grown := true }) hown, htree.expanded hown, hleft,
        Option.isSome_some, Bool.not_false, Bool.or_true]

/-- A position whose moves are known is not expanded again, so a mark that was taken away does not come back. -/
theorem read_of_unmarked (rules : Rules π) {slot : Nat} {e : Engine π υ} {entry : Entry π υ} {moves : List Move}
    (hentry : e.tree.entry? slot = some entry) (hmoves : entry.moves = some moves) :
    setPropertyAt rules slot expandTrigger (.bool true) { e with tree := e.tree.unmarked slot } =
        .ok true { e with tree := e.tree.unmarked slot } ∧
      Property.read (propertiesAt { e with tree := e.tree.unmarked slot } slot) expandTrigger = .ok (.bool false) := by
  have hentry' : ({ e with tree := e.tree.unmarked slot } : Engine π υ).tree.entry? slot = some entry := hentry
  have hunmarked : (e.tree.unmarked slot).isExpanded slot = false := by
    unfold Tree.isExpanded Tree.unmarked
    rw [Graph.node?_modifyNode, if_pos rfl]
    cases e.tree.graph.node? slot <;> simp [Bag.bool?, Bag.get?_set, Json.bool?]
  refine ⟨setPropertyAt_of_expandNode hentry' (expandNode_of_kept rules hentry' hmoves), ?_⟩
  rw [read_expandTrigger hentry', hunmarked]

omit [Score υ] in
/-- A position that is not expanded can be expanded where the budget and the rules allow it. -/
theorem exists_expanded {rules : Rules π} {slot : Nat} {e : Engine π υ} (h : e.tree.InStep) {entry : Entry π υ}
    (hentry : e.tree.entry? slot = some entry) (hmoves : entry.moves = none) (hleft : e.expansions.isExhausted = false)
    {branches : List (Action × π)} (hbranches : rules.branches entry.position = .ok branches) :
    ∃ x e' moves, expandNode rules slot e = .ok x e' ∧ e'.tree.entry? slot = some { entry with moves := some moves } := by
  have houtcome := expandNode_outcome rules slot h
  generalize expandNode rules slot e = r at houtcome
  cases houtcome with
  | missing hnone => cases hentry.symm.trans hnone
  | kept hentry' hmoves' =>
      cases hentry.symm.trans hentry'
      cases hmoves.symm.trans hmoves'
  | refused _ _ hspent => rw [(Budget.spend?_eq_none_iff _).mp hspent] at hleft; cases hleft
  | failed hentry' _ _ hfails =>
      cases hentry.symm.trans hentry'
      cases hbranches.symm.trans hfails
  | opened _ _ _ _ _ _ hopens => exact ⟨_, _, _, rfl, hopens.own hentry⟩

end Engine

end Game

/-! ## Single settings -/

namespace Graph

/-- Two nodes with an edge between them are reached by adding them. -/
theorem reachable_bridge : bridge.restructured.Reachable := by
  have hfirst := (Reachable.fresh .freeForm).withNode "A" [] rfl (by simp [slot?, empty])
  have hsecond := hfirst.withNode "B" [] rfl (by rw [slot?_withNode]; simp [slot?, empty])
  exact hsecond.run (.addEdge 0 1 false [])

/-- What is read of the edge, in either direction, after its cost was set. -/
theorem weight_of_bridge {n : Number} (hn : n.Finite) (id : EdgeId) (hid : id = ⟨1⟩ ∨ id = ⟨-1⟩) :
    ∃ g', setProperty (.edge id) "weight" (.number n) bridge.restructured = .ok true g' ∧
      g'.getProperty (.edge id) "weight" = .ok (.ofFloat (if (n.toFloat == 0.0) = true then 1.0 else n.toFloat)) := by
  rw [← toFloat_weightOf_set hn []]
  rcases hid with rfl | rfl <;> exact ⟨_, rfl, rfl⟩

end Graph

/-- **Whatever is set is read back.** A value that is accepted for a property of a graph, of a node or of an edge in
either direction is what is read of the property: numbers as the same double, but 1 where an edge is to cost a zero, and
the largest word for a size beyond all words. And a position whose trigger is accepted is read as expanded, unless it was
not, and nothing is left of the budget. -/
theorem settings_are_read_back {π υ : Type} [Game.Position π υ] [Game.Score υ] :
    (∀ {g g' : Graph}, g.Reachable → ∀ {target : Target} {name : String} {value : Json}, value.Finite →
      Graph.setProperty target name value g = .ok true g' →
        ∃ v, g'.getProperty target name = .ok v ∧ v.Alike (Json.settled name value)) ∧
    ∀ {e e' : Game.Engine π υ}, e.Reachable → ∀ {rules : Game.Rules π} {slot : Nat} {value : Json},
      Game.Engine.setPropertyAt rules slot Game.Engine.expandTrigger value e = .ok true e' →
        Property.read (e'.propertiesAt slot) Game.Engine.expandTrigger =
          .ok (.bool (e.tree.isExpanded slot || !e.expansions.isExhausted)) :=
  ⟨fun hg _ _ _ hvalue hset => Graph.getProperty_setProperty hg.arena_indexed.1 hvalue hset,
    fun he _ _ _ hset => Game.Engine.read_of_setPropertyAt he.inStep hset⟩

/-- The engine of a game of two moves, before anything was expanded. -/
theorem fresh_twoPly :
    ∃ (fresh : Game.Engine Game.Place Float) (entry : Game.Entry Game.Place Float) (branches : _),
      fresh.Reachable ∧ fresh.tree.entry? fresh.tree.root = some entry ∧ entry.moves = none ∧
      fresh.expansions.isExhausted = false ∧ (Game.Table.twoPly.rules none).branches entry.position = .ok branches := by
  obtain ⟨fresh, hfresh⟩ : ∃ fresh : Game.Engine Game.Place Float,
      Game.Engine.ofRules (Game.Table.twoPly.rules none) = .ok fresh := ⟨_, rfl⟩
  obtain ⟨p, hp, hsame⟩ := Game.Engine.ofRules_spec hfresh
  obtain ⟨-, hroot, -⟩ := Game.Tree.ofRoot_spec (υ := Float) p
  cases hp
  subst hsame
  exact ⟨_, _, _, .fresh hfresh, hroot, rfl, rfl, rfl⟩

/-- The cost of an edge seen backwards, and the start of a game. -/
theorem settings_are_read_back_sample :
    (Graph.bridge.restructured.Reachable ∧ (Json.number (.float 2.5)).Finite ∧
      ∃ g', Graph.setProperty (.edge ⟨-1⟩) "weight" (.number (.float 2.5)) Graph.bridge.restructured = .ok true g' ∧
        ∃ v, g'.getProperty (.edge ⟨-1⟩) "weight" = .ok v ∧ v.Alike (Json.settled "weight" (.number (.float 2.5)))) ∧
    ∃ fresh e' : Game.Engine Game.Place Float, fresh.Reachable ∧
      Game.Engine.setPropertyAt (Game.Table.twoPly.rules none) fresh.tree.root Game.Engine.expandTrigger (.bool true) fresh =
        .ok true e' ∧
      Property.read (e'.propertiesAt fresh.tree.root) Game.Engine.expandTrigger =
        .ok (.bool (fresh.tree.isExpanded fresh.tree.root || !fresh.expansions.isExhausted)) := by
  have hnumber : (Number.float 2.5).Finite := ⟨by decide +kernel, by decide +kernel⟩
  have hvalue : (Json.number (.float 2.5)).Finite := by
    intro n hn
    cases hn
    exact hnumber
  obtain ⟨g', hset, -⟩ := Graph.weight_of_bridge hnumber ⟨-1⟩ (.inr rfl)
  obtain ⟨fresh, entry, branches, hfresh, hentry, hmoves, hleft, hbranches⟩ := fresh_twoPly
  obtain ⟨x, e', moves, hexpand, -⟩ := Game.Engine.exists_expanded hfresh.inStep hentry hmoves hleft hbranches
  have hpull := Game.Engine.setPropertyAt_of_expandNode hentry hexpand
  exact ⟨⟨Graph.reachable_bridge, hvalue, g', hset,
      (@settings_are_read_back Game.Place Float _ _).1 Graph.reachable_bridge hvalue hset⟩,
    fresh, e', hfresh, hpull, (@settings_are_read_back Game.Place Float _ _).2 hfresh hpull⟩

/-- What is not read back as it was set: an edge that is to cost nothing costs 1; a number that is no double is rounded;
a size beyond all words is the largest word; the trigger of a position stays off where the budget is used up, and also where its mark was taken away from outside. -/
theorem settings_not_read_back :
    (Graph.bridge.restructured.Reachable ∧
      (∃ g', Graph.setProperty (.edge ⟨1⟩) "weight" (.int 0) Graph.bridge.restructured = .ok true g' ∧
        g'.getProperty (.edge ⟨1⟩) "weight" = .ok (.ofFloat 1.0)) ∧ ¬ (Json.ofFloat 1.0).Alike (.int 0) ∧
      ∃ g', Graph.setProperty (.edge ⟨1⟩) "weight" (.int (2 ^ 53 + 1)) Graph.bridge.restructured = .ok true g' ∧
        g'.getProperty (.edge ⟨1⟩) "weight" = .ok (.ofFloat 9007199254740992.0)) ∧
    (∃ g g' : Graph, g.Reachable ∧ Graph.setProperty .graph "width" (.number (.float 1e20)) g = .ok true g' ∧
      g'.getProperty .graph "width" = .ok (.nat (UInt64.size - 1))) ∧
    (∃ e : Game.Engine Game.Place Float, e.Reachable ∧
      Game.Engine.setPropertyAt (Game.Table.twoPly.rules none) e.tree.root Game.Engine.expandTrigger (.bool true) e =
        .ok true e ∧
      Property.read (e.propertiesAt e.tree.root) Game.Engine.expandTrigger = .ok (.bool false)) ∧
    ∃ (e : Game.Engine Game.Place Float) (slot : Nat), e.Reachable ∧
      Game.Engine.setPropertyAt (Game.Table.twoPly.rules none) slot Game.Engine.expandTrigger (.bool true)
          { e with tree := e.tree.unmarked slot } = .ok true { e with tree := e.tree.unmarked slot } ∧
      Property.read (Game.Engine.propertiesAt { e with tree := e.tree.unmarked slot } slot) Game.Engine.expandTrigger =
        .ok (.bool false) := by
  obtain ⟨fresh, entry, branches, hfresh, hentry, hmoves, hleft, hbranches⟩ := fresh_twoPly
  refine ⟨⟨Graph.reachable_bridge, ?_, ?_, ?_⟩, ?_, ?_, ?_⟩
  · exact Graph.weight_of_bridge (n := .int 0) ⟨by decide +kernel, by decide +kernel⟩ ⟨1⟩ (.inl rfl)
  · have hone : Json.ofFloat 1.0 = .number (.float 1.0) := rfl
    have hdiffer : ¬ ((1.0 : Float) == (Number.int 0).toFloat) = true := by decide +kernel
    rw [hone]
    exact hdiffer
  · have hrounded : (if ((Number.int (2 ^ 53 + 1)).toFloat == 0.0) = true then 1.0 else (Number.int (2 ^ 53 + 1)).toFloat) =
        9007199254740992.0 := by decide +kernel
    rw [← hrounded]
    exact Graph.weight_of_bridge ⟨by decide +kernel, by decide +kernel⟩ ⟨1⟩ (.inl rfl)
  · obtain ⟨g, hmade, hlattice, -, hstart, hgoal, -⟩ := Graph.lattice_ofGrid 1 1 (Graph.completable_unchecked .disabled)
    obtain ⟨g', hresize, hlattice', -⟩ := hlattice.resize_of_kept (Number.float 1e20).toFloat.toUInt64.toNat 1
      (Graph.completable_unchecked .disabled) (by simp [hstart, hgoal])
    have hwidth : (Number.float 1e20).toFloat.toUInt64.toNat = UInt64.size - 1 := by decide +kernel
    refine ⟨g, g'.redraw, .fresh (.grid hmade), Graph.setProperty_width hlattice.grid (by decide +kernel) hresize, ?_⟩
    rw [Graph.getProperty_redraw, Graph.getProperty_graph (Graph.find?_sizes hlattice'.grid).1, hwidth]
  · have hstep := hfresh.inStep
    have hunmarked : fresh.tree.isExpanded fresh.tree.root = false := by rw [hstep.expanded hentry, hmoves]; rfl
    have hposition : fresh.tree.position? fresh.tree.root = some entry.position := by simp [Game.Tree.position?, hentry]
    have hrefused := Game.Engine.expandNode_of_exhausted (Game.Table.twoPly.rules none)
      (e := { fresh with expansions := .limited 0 }) hstep hposition hunmarked rfl
    refine ⟨{ fresh with expansions := .limited 0 }, hfresh.call (.setBudget (.limited 0)),
      Game.Engine.setPropertyAt_of_expandNode hentry hrefused, ?_⟩
    have hread := Game.Engine.read_expandTrigger (e := { fresh with expansions := .limited 0 }) hentry
    rwa [hunmarked] at hread
  · obtain ⟨x, e', moves, hexpand, hopened⟩ := Game.Engine.exists_expanded hfresh.inStep hentry hmoves hleft hbranches
    have hcalled : e'.Reachable := by
      have hcall := hfresh.call (.expandNode (Game.Table.twoPly.rules none) fresh.tree.root)
      rwa [Game.Engine.Call.run, Edit.after_ok hexpand] at hcall
    exact ⟨e', fresh.tree.root, hcalled, Game.Engine.read_of_unmarked _ hopened rfl⟩

end SearchLab
