import SearchLab.Game.Budget
import SearchLab.Game.Tree

/-!
# Expanding positions

An engine holds a game tree and expands its positions on demand, each at most once: the moves of a position are
kept, and asking for them again costs nothing. A new expansion takes a unit out of a budget; when the budget is
used up, a position simply shows no moves, and is expanded on a later demand.

All branches of a position are asked of the rules before the tree is touched, so rules that fail leave no trace
but the unit that was spent.
-/

namespace SearchLab.Game

/-- A game tree, what may still be done to it, and whether it has grown. -/
structure Engine (π υ : Type) where
  tree : Tree π υ
  /-- The positions that may still be expanded. -/
  expansions : Budget := .unlimited
  /-- The steps of an evaluation that may still be taken. -/
  steps : Budget := .unlimited
  /-- The tree has grown since this was last asked. -/
  grown : Bool := false

namespace Engine

variable {π υ : Type} [Position π υ]

/-- The engine of a game that was not looked into yet. -/
def ofRules (rules : Rules π) : Except Error (Engine π υ) :=
  match rules.initial with
  | .error e => .error e
  | .ok p => .ok { tree := Tree.ofRoot p }

/-- Expands a position whose branches are known. -/
def growTree (slot : Nat) (p : π) (branches : List (Action × π)) : Edit (Engine π υ) Expansion := fun e =>
  match Tree.grow slot p branches e.tree with
  | .error err tree => .error err { e with tree }
  | .ok moves tree => .ok ⟨Position.id p, moves⟩ { e with tree, grown := true }

/-- The moves of the position in a slot: those that are kept, those of the edges where only the node is marked as
expanded, or else those that the rules give. -/
def expandNode (rules : Rules π) (slot : Nat) : Edit (Engine π υ) Expansion := fun e =>
  match e.tree.entry? slot with
  | none => .error (.treeNodeMissing slot) e
  | some entry =>
    let p := entry.position
    match entry.moves with
    | some moves => .ok ⟨Position.id p, moves⟩ e
    | none =>
      if e.tree.isExpanded slot then
        let moves := e.tree.movesFromEdges slot
        .ok ⟨Position.id p, moves⟩ { e with tree := e.tree.keepMoves slot moves }
      else
        match e.expansions.spend? with
        | none => .ok ⟨Position.id p, []⟩ e
        | some expansions =>
          let e := { e with expansions }
          match rules.branches p with
          | .error err => .error err e
          | .ok branches => growTree slot p branches e

/-- The moves of a position, which joins the tree if it is new. -/
def expand (rules : Rules π) (p : π) : Edit (Engine π υ) Expansion := fun e =>
  match e.tree.graph.slot? (Position.id p) with
  | some slot => expandNode rules slot e
  | none =>
    match Tree.ensureNode p e.tree with
    | .error err tree => .error err { e with tree }
    | .ok (slot, _) tree => expandNode rules slot { e with tree, grown := true }

omit [Position π υ] in
/-- Whether the tree has grown since this was last asked. -/
def takeGrown (e : Engine π υ) : Bool × Engine π υ := (e.grown, { e with grown := false })

end Engine

end SearchLab.Game
