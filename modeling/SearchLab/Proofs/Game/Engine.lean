import SearchLab.Proofs.Edit
import SearchLab.Proofs.Game.Play

/-!
# What an engine does when it is asked to expand

`Outcome` lists what becomes of a call to expand the position in a slot: there is no position, its moves are kept, the
budget is used up, the rules fail, or the position is opened. Everything below is read off this list.

The rules may fail at any call, so each call brings the rules as they are at that time. `counted` does what a call does
and keeps a count of the units that were taken out of the budget.

* `expandNode_outcome` — on a tree in step nothing else happens;
* `expansions_are_accounted` — each position is expanded once, a unit is spent for each expansion and for each call that
  fails in the rules, and a call that fails leaves no other trace.
-/

namespace SearchLab.Game.Engine

open SearchLab.Game.Tree (Joins Opens Grows)

variable {π υ : Type} [Position π υ]

/-- What becomes of a call to expand the position in a slot. -/
inductive Outcome (rules : Rules π) (slot : Nat) (e : Engine π υ) :
    EStateM.Result Error (Engine π υ) Expansion → Prop
  | missing (hentry : e.tree.entry? slot = none) : Outcome rules slot e (.error (.treeNodeMissing slot) e)
  | kept {entry : Entry π υ} {moves : List Move} (hentry : e.tree.entry? slot = some entry)
      (hmoves : entry.moves = some moves) : Outcome rules slot e (.ok ⟨Position.id entry.position, moves⟩ e)
  | refused {entry : Entry π υ} (hentry : e.tree.entry? slot = some entry) (hmoves : entry.moves = none)
      (hspent : e.expansions.spend? = none) : Outcome rules slot e (.ok ⟨Position.id entry.position, []⟩ e)
  | failed {entry : Entry π υ} {left : Budget} {err : Error} (hentry : e.tree.entry? slot = some entry)
      (hmoves : entry.moves = none) (hspend : e.expansions.spend? = some left)
      (hfails : rules.branches entry.position = .error err) :
      Outcome rules slot e (.error err { e with expansions := left })
  | opened {entry : Entry π υ} {left : Budget} {branches : List (Action × π)} {moves : List Move} {tree : Tree π υ}
      (hentry : e.tree.entry? slot = some entry) (hmoves : entry.moves = none)
      (hspend : e.expansions.spend? = some left) (hbranches : rules.branches entry.position = .ok branches)
      (hgrow : Tree.grow slot entry.position branches e.tree = .ok moves tree) (htree : tree.InStep)
      (hopens : Opens slot branches moves e.tree tree) :
      Outcome rules slot e
        (.ok ⟨Position.id entry.position, moves⟩ { e with tree, expansions := left, grown := true })

/-- **What becomes of a call** on a tree in step. -/
theorem expandNode_outcome (rules : Rules π) (slot : Nat) {e : Engine π υ} (h : e.tree.InStep) :
    Outcome rules slot e (expandNode rules slot e) := by
  unfold expandNode
  split
  · rename_i hentry
    exact .missing hentry
  · rename_i entry hentry
    dsimp only
    cases hmoves : entry.moves with
    | some moves => exact .kept hentry hmoves
    | none =>
        have hmark : e.tree.isExpanded slot = false := by rw [h.expanded hentry, hmoves, Option.isSome_none]
        simp only [hmark, Bool.false_eq_true, if_false]
        cases hspend : e.expansions.spend? with
        | none => exact .refused hentry hmoves hspend
        | some left =>
            cases hbranches : rules.branches entry.position with
            | error err => exact .failed hentry hmoves hspend hbranches
            | ok branches =>
                obtain ⟨moves, tree, hgrow, htree, hopens⟩ := Tree.grow_spec h hentry entry.position branches
                simp only [growTree, hgrow]
                exact .opened hentry hmoves hspend hbranches hgrow htree hopens

/-- A position that is to be expanded finds its slot first; where it is new, the tree has grown. -/
theorem expand_eq (rules : Rules π) (p : π) {e : Engine π υ} (h : e.tree.InStep) :
    ∃ slot tree grown, expand rules p e = expandNode rules slot { e with tree, grown } ∧ tree.InStep ∧
      Joins (· = p) e.tree tree ∧ tree.graph.slot? (Position.id p) = some slot := by
  cases hslot : e.tree.graph.slot? (Position.id p) with
  | some slot => exact ⟨slot, e.tree, e.grown, by simp only [expand, hslot], h, .refl _ _, hslot⟩
  | none =>
      obtain ⟨slot, isNew, tree, hensure, htree, hfound, hjoins⟩ := Tree.ensureNode_spec h p
      exact ⟨slot, tree, true, by simp only [expand, hslot, hensure], htree, hjoins, hfound⟩

namespace Outcome

variable {rules : Rules π} {slot : Nat} {e : Engine π υ} {r : EStateM.Result Error (Engine π υ) Expansion}

/-- The engine that a call leaves behind. -/
def engine : EStateM.Result Error (Engine π υ) Expansion → Engine π υ
  | .ok _ e => e
  | .error _ e => e

/-- Whatever becomes of a call, the tree stays in step and loses nothing. -/
theorem inStep_grows (h : Outcome rules slot e r) (he : e.tree.InStep) :
    (engine r).tree.InStep ∧ Grows e.tree (engine r).tree := by
  cases h with
  | missing | kept | refused | failed => exact ⟨he, .refl _⟩
  | opened hentry hmoves _ _ _ htree hopens => exact ⟨htree, hopens.grows hentry hmoves⟩

/-- Whatever becomes of a call, the tree goes on to obey the rules. -/
theorem obeys {G : Set π} (h : Outcome rules slot e r) (he : e.tree.Obeys rules G) (hwithin : rules.Within G) :
    (engine r).tree.Obeys rules G := by
  cases h with
  | missing | kept | refused | failed => exact he
  | opened hentry _ _ hbranches _ _ hopens => exact he.opens hwithin hopens hentry hbranches

end Outcome

omit [Position π υ] in
theorem after_eq_engine (edit : Edit (Engine π υ) Expansion) (e : Engine π υ) : edit.after e = Outcome.engine (edit e) := by
  unfold Edit.after Outcome.engine
  cases edit e <;> rfl

/-! ## Sequences of calls -/

/-- What is asked of an engine, with the rules as they are at that time. -/
inductive Call (π : Type) where
  | expand (rules : Rules π) (p : π)
  | expandNode (rules : Rules π) (slot : Nat)
  | setBudget (budget : Budget)

/-- The engine after a call, also when the call fails. -/
def Call.run (e : Engine π υ) : Call π → Engine π υ
  | .expand rules p => (Engine.expand rules p).after e
  | .expandNode rules slot => (Engine.expandNode rules slot).after e
  | .setBudget budget => { e with expansions := budget }

/-- The engine after some calls. -/
def runAll (calls : List (Call π)) (e : Engine π υ) : Engine π υ := calls.foldl Call.run e

theorem Call.inStep_grows (call : Call π) {e : Engine π υ} (h : e.tree.InStep) :
    (call.run e).tree.InStep ∧ Grows e.tree (call.run e).tree := by
  cases call with
  | setBudget budget => exact ⟨h, .refl _⟩
  | expandNode rules slot =>
      rw [Call.run, after_eq_engine]
      exact (expandNode_outcome rules slot h).inStep_grows h
  | expand rules p =>
      obtain ⟨slot, tree, grown, hexpand, htree, hjoins, _⟩ := expand_eq rules p h
      obtain ⟨hstep, hgrows⟩ := (expandNode_outcome rules slot (e := { e with tree, grown }) htree).inStep_grows htree
      rw [Call.run, after_eq_engine, hexpand]
      exact ⟨hstep, hjoins.grows.trans hgrows⟩

theorem runAll_inStep_grows (calls : List (Call π)) {e : Engine π υ} (h : e.tree.InStep) :
    (runAll calls e).tree.InStep ∧ Grows e.tree (runAll calls e).tree := by
  induction calls generalizing e with
  | nil => exact ⟨h, .refl _⟩
  | cons call rest ih =>
      obtain ⟨hfirst, hgrows⟩ := call.inStep_grows h
      obtain ⟨hlast, hrest⟩ := ih hfirst
      exact ⟨hlast, hgrows.trans hrest⟩

/-- A call that has to do with one game only. -/
def Call.OfGame (rules : Rules π) (G : Set π) : Call π → Prop
  | .expand rules' p => rules' = rules ∧ p ∈ G
  | .expandNode rules' _ => rules' = rules
  | .setBudget _ => True

theorem Call.obeys {rules : Rules π} {G : Set π} (hwithin : rules.Within G) {call : Call π} (hcall : call.OfGame rules G)
    {e : Engine π υ} (h : e.tree.InStep) (hobeys : e.tree.Obeys rules G) : (call.run e).tree.Obeys rules G := by
  cases call with
  | setBudget budget => exact hobeys
  | expandNode rules' slot =>
      obtain rfl : rules' = rules := hcall
      rw [Call.run, after_eq_engine]
      exact (expandNode_outcome rules' slot h).obeys hobeys hwithin
  | expand rules' p =>
      obtain ⟨rfl, hp⟩ := hcall
      obtain ⟨slot, tree, grown, hexpand, htree, hjoins, _⟩ := expand_eq rules' p h
      rw [Call.run, after_eq_engine, hexpand]
      exact (expandNode_outcome rules' slot (e := { e with tree, grown }) htree).obeys
        (hobeys.joins hjoins fun q hq => hq ▸ hp) hwithin

/-- The engine of a game that was not looked into yet has its tree in step, and nothing is expanded there. -/
theorem ofRules_spec {rules : Rules π} {e : Engine π υ} (h : ofRules rules = .ok e) :
    ∃ p, rules.initial = .ok p ∧ e = { tree := Tree.ofRoot p } := by
  unfold ofRules at h
  cases hinitial : rules.initial with
  | error err => simp [hinitial] at h
  | ok p => exact ⟨p, rfl, by simpa [hinitial] using h.symm⟩

/-! ## Each position is expanded once -/

/-- Moves that are kept are given for nothing. -/
theorem expandNode_of_kept (rules : Rules π) {slot : Nat} {e : Engine π υ} {entry : Entry π υ} {moves : List Move}
    (hentry : e.tree.entry? slot = some entry) (hmoves : entry.moves = some moves) :
    expandNode rules slot e = .ok ⟨Position.id entry.position, moves⟩ e := by
  simp only [expandNode, hentry, hmoves]

/-- Once a position was expanded, every later call gives the same moves and leaves everything as it is. -/
theorem expandNode_again {rules : Rules π} {slot : Nat} {e e' : Engine π υ} {x : Expansion} (h : e.tree.InStep)
    (hcall : expandNode rules slot e = .ok x e') (hexpanded : e'.tree.isExpanded slot = true) (rules' : Rules π)
    (later : List (Call π)) : expandNode rules' slot (runAll later e') = .ok x (runAll later e') := by
  have houtcome := hcall ▸ expandNode_outcome rules slot h
  -- However the call came to its moves, they are kept behind it.
  have hkept : e'.tree.InStep ∧ ∃ entry moves, e'.tree.entry? slot = some entry ∧ entry.moves = some moves ∧
      x = ⟨Position.id entry.position, moves⟩ := by
    cases houtcome with
    | kept hentry hmoves => exact ⟨h, _, _, hentry, hmoves, rfl⟩
    | refused hentry hmoves _ => simp [h.expanded hentry, hmoves] at hexpanded
    | opened hentry _ _ _ _ htree hopens => exact ⟨htree, _, _, hopens.own hentry, rfl, rfl⟩
  obtain ⟨htree, entry, moves, hentry, hmoves, rfl⟩ := hkept
  obtain ⟨entry', hentry', hposition, hstays⟩ := (runAll_inStep_grows later htree).2.stays hentry
  rw [expandNode_of_kept rules' hentry' (hstays moves hmoves), hposition]

/-- Without budget, a position that is not expanded shows no moves, and nothing changes. -/
theorem expandNode_of_exhausted (rules : Rules π) {slot : Nat} {e : Engine π υ} {p : π} (h : e.tree.InStep)
    (hp : e.tree.position? slot = some p) (hexpanded : e.tree.isExpanded slot = false)
    (hbudget : e.expansions.isExhausted = true) : expandNode rules slot e = .ok ⟨Position.id p, []⟩ e := by
  obtain ⟨entry, hentry, rfl⟩ := Option.map_eq_some_iff.mp hp
  have hmoves : entry.moves = none := by simpa [hexpanded] using h.expanded hentry
  simp only [expandNode, hentry, hmoves, hexpanded, (Budget.spend?_eq_none_iff _).mpr hbudget, Bool.false_eq_true,
    if_false]

/-- Rules that fail leave no trace but the unit that was spent. -/
theorem expandNode_of_failed {rules : Rules π} {slot : Nat} {e e' : Engine π υ} {p : π} {err : Error} (h : e.tree.InStep)
    (hp : e.tree.position? slot = some p) (hcall : expandNode rules slot e = .error err e') :
    rules.branches p = .error err ∧ ∃ left, e.expansions.spend? = some left ∧ e' = { e with expansions := left } := by
  obtain ⟨entry, hentry, rfl⟩ := Option.map_eq_some_iff.mp hp
  have houtcome := hcall ▸ expandNode_outcome rules slot h
  cases houtcome with
  | missing hnone => simp [hentry] at hnone
  | failed hentry' _ hspend hfails =>
      cases hentry.symm.trans hentry'
      exact ⟨hfails, _, hspend, rfl⟩

/-! ## What is spent -/

/-- An engine, with the number of units that were taken out of its budgets. -/
structure Counted (π υ : Type) where
  engine : Engine π υ
  units : Nat := 0

namespace Counted

/-- `Engine.expandNode`, where a unit that is spent is counted. -/
def expandNode (rules : Rules π) (slot : Nat) : Edit (Counted π υ) Expansion := fun c =>
  match c.engine.tree.entry? slot with
  | none => .error (.treeNodeMissing slot) c
  | some entry =>
    let p := entry.position
    match entry.moves with
    | some moves => .ok ⟨Position.id p, moves⟩ c
    | none =>
      if c.engine.tree.isExpanded slot then
        let moves := c.engine.tree.movesFromEdges slot
        .ok ⟨Position.id p, moves⟩
          { c with engine := { c.engine with tree := c.engine.tree.keepMoves slot moves } }
      else
        match c.engine.expansions.spend? with
        | none => .ok ⟨Position.id p, []⟩ c
        | some expansions =>
          let c := { engine := { c.engine with expansions }, units := c.units + 1 }
          match rules.branches p with
          | .error err => .error err c
          | .ok branches =>
            match growTree slot p branches c.engine with
            | .error err engine => .error err { c with engine }
            | .ok x engine => .ok x { c with engine }

/-- `Engine.expand`, where a unit that is spent is counted. -/
def expand (rules : Rules π) (p : π) : Edit (Counted π υ) Expansion := fun c =>
  match c.engine.tree.graph.slot? (Position.id p) with
  | some slot => expandNode rules slot c
  | none =>
    match Tree.ensureNode p c.engine.tree with
    | .error err tree => .error err { c with engine := { c.engine with tree } }
    | .ok (slot, _) tree => expandNode rules slot { c with engine := { c.engine with tree, grown := true } }

/-- `Call.run`, where a unit that is spent is counted. -/
def run (c : Counted π υ) : Call π → Counted π υ
  | .expand rules p => (expand rules p).after c
  | .expandNode rules slot => (expandNode rules slot).after c
  | .setBudget budget => { c with engine := { c.engine with expansions := budget } }

/-- `runAll`, where a unit that is spent is counted. -/
def runAll (calls : List (Call π)) (c : Counted π υ) : Counted π υ := calls.foldl run c

/-- What a call comes to when the count is left out. -/
def erase : EStateM.Result Error (Counted π υ) Expansion → EStateM.Result Error (Engine π υ) Expansion
  | .ok x c => .ok x c.engine
  | .error err c => .error err c.engine

/-- Counting does not change what a call does. -/
theorem erase_expandNode (rules : Rules π) (slot : Nat) (c : Counted π υ) :
    erase (expandNode rules slot c) = Engine.expandNode rules slot c.engine := by
  simp only [expandNode, Engine.expandNode]
  cases c.engine.tree.entry? slot with
  | none => rfl
  | some entry =>
      dsimp only
      cases entry.moves with
      | some moves => rfl
      | none =>
          dsimp only
          split
          · rfl
          · cases c.engine.expansions.spend? with
            | none => rfl
            | some left =>
                dsimp only
                cases rules.branches entry.position with
                | error err => rfl
                | ok branches =>
                    dsimp only
                    cases growTree slot entry.position branches { c.engine with expansions := left } <;> rfl

theorem erase_expand (rules : Rules π) (p : π) (c : Counted π υ) :
    erase (expand rules p c) = Engine.expand rules p c.engine := by
  unfold expand Engine.expand
  cases c.engine.tree.graph.slot? (Position.id p) with
  | some slot => exact erase_expandNode rules slot c
  | none =>
      dsimp only
      cases Tree.ensureNode p c.engine.tree with
      | error err tree => rfl
      | ok found tree => exact erase_expandNode rules found.1 { c with engine := { c.engine with tree, grown := true } }

omit [Position π υ] in
theorem engine_after {counted : Edit (Counted π υ) Expansion} {edit : Edit (Engine π υ) Expansion} {c : Counted π υ}
    (h : erase (counted c) = edit c.engine) : (counted.after c).engine = edit.after c.engine := by
  unfold Edit.after
  rw [← h]
  cases counted c <;> rfl

theorem engine_run (call : Call π) (c : Counted π υ) : (c.run call).engine = call.run c.engine := by
  cases call with
  | expand rules p => exact engine_after (erase_expand rules p c)
  | expandNode rules slot => exact engine_after (erase_expandNode rules slot c)
  | setBudget budget => rfl

theorem engine_runAll (calls : List (Call π)) (c : Counted π υ) : (runAll calls c).engine = Engine.runAll calls c.engine := by
  induction calls generalizing c with
  | nil => rfl
  | cons call rest ih =>
      have hrest := ih (c.run call)
      rw [engine_run] at hrest
      exact hrest

end Counted

/-- Whether a call comes to an error. -/
def isError : EStateM.Result Error (Engine π υ) Expansion → Bool
  | .ok .. => false
  | .error .. => true

/-- Whether a call fails in the rules: it comes to an error, and not because there is no position in its slot. -/
def Call.fails (e : Engine π υ) : Call π → Bool
  | .expand rules p => isError (Engine.expand rules p e)
  | .expandNode rules slot => (e.tree.entry? slot).isSome && isError (Engine.expandNode rules slot e)
  | .setBudget _ => false

/-- The number of calls that fail in the rules. -/
def failures : List (Call π) → Engine π υ → Nat
  | [], _ => 0
  | call :: calls, e => (call.fails e).toNat + failures calls (call.run e)

/-- **What one call spends.** A position more is expanded for it, or the rules have failed. -/
theorem units_expandNode (rules : Rules π) (slot : Nat) {c : Counted π υ} (h : c.engine.tree.InStep) :
    ((Counted.expandNode rules slot).after c).units + c.engine.tree.expandedSlots.card =
      c.units + ((Counted.expandNode rules slot).after c).engine.tree.expandedSlots.card +
        ((c.engine.tree.entry? slot).isSome && isError (expandNode rules slot c.engine)).toNat := by
  have houtcome := expandNode_outcome rules slot h
  generalize expandNode rules slot c.engine = r at houtcome ⊢
  cases houtcome with
  | missing hentry => simp [Edit.after, Counted.expandNode, hentry, isError]
  | kept hentry hmoves => simp [Edit.after, Counted.expandNode, hentry, hmoves, isError]
  | refused hentry hmoves hspent =>
      have hmark : c.engine.tree.isExpanded slot = false := by rw [h.expanded hentry, hmoves, Option.isSome_none]
      simp [Edit.after, Counted.expandNode, hentry, hmoves, hmark, hspent, isError]
  | failed hentry hmoves hspend hfails =>
      have hmark : c.engine.tree.isExpanded slot = false := by rw [h.expanded hentry, hmoves, Option.isSome_none]
      simp [Edit.after, Counted.expandNode, hentry, hmoves, hmark, hspend, hfails, isError]
      omega
  | opened hentry hmoves hspend hbranches hgrow htree hopens =>
      have hmark : c.engine.tree.isExpanded slot = false := by rw [h.expanded hentry, hmoves, Option.isSome_none]
      have hcard := hopens.card_expandedSlots h htree hentry hmoves
      simp [Edit.after, Counted.expandNode, hentry, hmoves, hmark, hspend, hbranches, growTree, hgrow, isError, hcard]
      omega

theorem units_run (call : Call π) {c : Counted π υ} (h : c.engine.tree.InStep) :
    (c.run call).units + c.engine.tree.expandedSlots.card =
      c.units + (c.run call).engine.tree.expandedSlots.card + (call.fails c.engine).toNat := by
  cases call with
  | setBudget budget => rfl
  | expandNode rules slot => exact units_expandNode rules slot h
  | expand rules p =>
      cases hslot : c.engine.tree.graph.slot? (Position.id p) with
      | some slot =>
          obtain ⟨entry, hentry, _⟩ := (h.lookup _ _).mp hslot
          have hunits := units_expandNode rules slot h
          simpa only [Counted.run, Call.fails, Edit.after, Counted.expand, Engine.expand, hslot, hentry, Option.isSome_some,
            Bool.true_and] using hunits
      | none =>
          obtain ⟨slot, isNew, tree, hensure, htree, hfound, hjoins⟩ := Tree.ensureNode_spec h p
          obtain ⟨entry, hentry, _⟩ := (htree.lookup _ _).mp hfound
          have hunits := units_expandNode rules slot
            (c := { c with engine := { c.engine with tree, grown := true } }) htree
          simpa only [Counted.run, Call.fails, Edit.after, Counted.expand, Engine.expand, hslot, hensure, hentry,
            Option.isSome_some, Bool.true_and, hjoins.expandedSlots h htree] using hunits

/-- What some calls spend, one by one. -/
theorem units_runAll (calls : List (Call π)) {c : Counted π υ} (h : c.engine.tree.InStep) :
    (Counted.runAll calls c).units + c.engine.tree.expandedSlots.card =
      c.units + (Counted.runAll calls c).engine.tree.expandedSlots.card + failures calls c.engine := by
  induction calls generalizing c with
  | nil => rfl
  | cons call rest ih =>
      have hnext : (c.run call).engine = call.run c.engine := Counted.engine_run call c
      have hstep : (c.run call).engine.tree.InStep := by
        rw [hnext]
        exact (call.inStep_grows h).1
      have hfirst := units_run call h
      have hrest : (Counted.runAll rest (c.run call)).units + (c.run call).engine.tree.expandedSlots.card =
          (c.run call).units + (Counted.runAll rest (c.run call)).engine.tree.expandedSlots.card +
            failures rest (call.run c.engine) := hnext ▸ ih hstep
      simp only [Counted.runAll, List.foldl_cons, failures] at hrest ⊢
      omega

/-- **Each position is expanded once, and each unit is accounted for.** Take an engine of a game, and any sequence of
calls, each with rules that may fail in their own way. Once a call has expanded a position, every later one gives the
same moves and changes nothing. Without budget, a position that is not expanded shows no moves, and nothing changes.
A call that fails in the rules leaves all as it was but for the unit that it has spent. And over the whole sequence as
many units are spent as there are positions that are expanded and calls that have failed in the rules. -/
theorem expansions_are_accounted {start : Rules π} {fresh : Engine π υ} (hfresh : ofRules start = .ok fresh)
    (calls : List (Call π)) :
    let e := runAll calls fresh
    let c := Counted.runAll calls { engine := fresh }
    (∀ rules slot x e', expandNode rules slot e = .ok x e' → e'.tree.isExpanded slot = true →
      ∀ rules' later, expandNode rules' slot (runAll later e') = .ok x (runAll later e')) ∧
    (∀ rules slot p, e.tree.position? slot = some p → e.tree.isExpanded slot = false →
      e.expansions.isExhausted = true → expandNode rules slot e = .ok ⟨Position.id p, []⟩ e) ∧
    (∀ rules slot p err e', e.tree.position? slot = some p → expandNode rules slot e = .error err e' →
      rules.branches p = .error err ∧ e' = { e with expansions := e'.expansions } ∧
        ∀ n, e.expansions = .limited n → 0 < n ∧ e'.expansions = .limited (n - 1)) ∧
    c.engine = e ∧ c.units = e.tree.expandedSlots.card + failures calls fresh := by
  obtain ⟨p, hp, rfl⟩ := ofRules_spec hfresh
  obtain ⟨hroot, _, hall⟩ := Tree.ofRoot_spec (υ := υ) p
  have h : (runAll calls { tree := Tree.ofRoot p } : Engine π υ).tree.InStep := (runAll_inStep_grows calls hroot).1
  refine ⟨?_, ?_, ?_, Counted.engine_runAll calls _, ?_⟩
  · intro rules slot x e' hcall hexpanded rules' later
    exact expandNode_again h hcall hexpanded rules' later
  · intro rules slot p hp hexpanded hbudget
    exact expandNode_of_exhausted rules h hp hexpanded hbudget
  · intro rules slot p err e' hp hcall
    obtain ⟨hfails, left, hspend, rfl⟩ := expandNode_of_failed h hp hcall
    refine ⟨hfails, rfl, ?_⟩
    intro n hn
    rw [hn] at hspend
    cases n with
    | zero => cases hspend
    | succ n => exact ⟨Nat.succ_pos n, (Option.some.inj hspend).symm⟩
  · have hunits := units_runAll calls (c := ({ engine := { tree := Tree.ofRoot p } } : Counted π υ)) hroot
    have hnone : (Tree.ofRoot p : Tree π υ).expandedSlots = ∅ := by
      ext slot
      rw [hroot.mem_expandedSlots]
      constructor
      · rintro ⟨e, he, hmoves⟩
        rw [hall he] at hmoves
        cases hmoves
      · intro hempty
        cases hempty
    rw [Counted.engine_runAll, hnone] at hunits
    simpa using hunits

/-- Three calls, of which the second meets broken rules and the third finds the budget used up. -/
theorem expansions_are_accounted_sample :
    let rules := Table.twoPly.rules none
    let broken := Table.twoPly.rules (some "out of order")
    let calls : List (Call Place) := [.setBudget (.limited 2), .expandNode rules 0, .expandNode broken 1, .expandNode rules 1]
    ∃ fresh : Engine Place Float, ofRules rules = .ok fresh ∧
      (Counted.runAll calls { engine := fresh }).units = (runAll calls fresh).tree.expandedSlots.card + failures calls fresh := by
  intro rules broken calls
  obtain ⟨fresh, hfresh⟩ : ∃ fresh : Engine Place Float, ofRules rules = .ok fresh := ⟨_, rfl⟩
  exact ⟨fresh, hfresh, (expansions_are_accounted hfresh calls).2.2.2.2⟩

end SearchLab.Game.Engine
