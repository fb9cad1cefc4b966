import SearchLab.Game.Engine

/-!
# Iterative deepening

A pass goes through the tree depth first, down to a limit, and expands what it comes to. Expanding a node that is
expanded already counts like any other expansion, and a node is met once on each line that leads to it. The next
pass goes one level deeper, as long as a pass finds more to expand than the one before it.

The search stops after each expansion and can be taken up again: its state is the stack of nodes on the present
line, each with the children that it still has to go through. `seek` moves on to the next node to be expanded
without expanding it, so an expansion that fails is tried again by the next step.

* `seek` ends: every turn takes something off the stack or off the passes that are left.
-/

namespace SearchLab.Game

namespace Deepening

/-- A node on the present line; the children that it still has to go through, once it was expanded. -/
structure Frame where
  slot : Nat
  depth : Nat
  pending : Option (List Nat) := none
deriving DecidableEq, Repr

/-- How many turns a frame still takes, at most. -/
def Frame.work (f : Frame) : Nat :=
  match f.pending with
  | none => 1
  | some children => 1 + 2 * children.length

/-- How many turns some frames still take, at most. -/
def stackWork : List Frame → Nat
  | [] => 0
  | frame :: below => frame.work + stackWork below

end Deepening

/-- A search that deepens pass by pass. -/
structure Deepening where
  root : Nat
  /-- The depth from which on nothing is expanded in the present pass. -/
  limit : Nat
  /-- The expansions of the present pass. -/
  found : Nat := 0
  /-- The expansions of the pass before it. -/
  best : Option Nat := none
  /-- The nodes on the present line, the deepest one first. -/
  stack : List Deepening.Frame
deriving DecidableEq, Repr

namespace Deepening

/-- The depth that a search starts with unless it is told otherwise. -/
def usualDepth : Nat := 4

/-- The search from a node at the start of its first pass. -/
def ofRoot (root limit : Nat) : Deepening := { root, limit, stack := [⟨root, 0, none⟩] }

/-- Whether the present pass has found no more than the one before it. -/
def isSettled (d : Deepening) : Bool := d.best.any (d.found ≤ ·)

/-- The search at the start of its next pass. -/
def nextPass (d : Deepening) : Deepening :=
  { d with best := some d.found, found := 0, limit := d.limit + 1, stack := [⟨d.root, 0, none⟩] }

/-- How many passes can come to their end, at most, before something has to be expanded. -/
def passesLeft (d : Deepening) : Nat := if d.isSettled then 1 else 2

/-- How many turns are left, at most, before something has to be expanded. -/
def work (d : Deepening) : Nat := 2 * d.passesLeft + stackWork d.stack

/-- Less on the stack is less work. -/
theorem work_lt {d : Deepening} {stack : List Frame}
    (h : stackWork stack < stackWork d.stack) : { d with stack }.work < d.work :=
  Nat.add_lt_add_left h (2 * d.passesLeft)

/-- The pass after one that has found more than before finds no more, as long as nothing is expanded. -/
theorem work_nextPass_lt {d : Deepening} (h : d.isSettled = false) : d.nextPass.work < d.work := by
  have before : d.passesLeft = 2 := by simp [passesLeft, h]
  have after : d.nextPass.work = 3 := by simp [work, passesLeft, nextPass, isSettled, stackWork, Frame.work]
  rw [after, work, before]
  omega

/-- The next node to be expanded, and the search that has come to it: the node is on top of the stack. `isInner`
tells the nodes at which the game goes on. -/
def seek (isInner : Nat → Bool) (d : Deepening) : Option Nat × Deepening :=
  match _hs : d.stack with
  | [] => if _h : d.isSettled then (none, d) else seek isInner d.nextPass
  | ⟨slot, depth, none⟩ :: below =>
    if isInner slot && depth < d.limit then (some slot, d) else seek isInner { d with stack := below }
  | ⟨_, _, some []⟩ :: below => seek isInner { d with stack := below }
  | ⟨slot, depth, some (child :: rest)⟩ :: below =>
    seek isInner { d with stack := ⟨child, depth + 1, none⟩ :: ⟨slot, depth, some rest⟩ :: below }
termination_by d.work
decreasing_by
  · exact work_nextPass_lt (by simpa using _h)
  all_goals
    apply work_lt
    simp only [_hs, stackWork, Frame.work, List.length_cons]
    omega

/-- The search after the node on top of its stack was expanded to these children. -/
def opened (d : Deepening) (children : List Nat) : Deepening :=
  match d.stack with
  | [] => d
  | frame :: below => { d with found := d.found + 1, stack := { frame with pending := some children } :: below }

variable {π υ : Type} [Position π υ]

/-- Whether the game goes on at the position in a slot. -/
def isInner (t : Tree π υ) (slot : Nat) : Bool := (t.position? slot).any fun p => !Position.isTerminal p

/-- Expands the next position; none is left when the search is done. -/
def step (rules : Rules π) : Edit (Deepening × Engine π υ) (Option Expansion) := fun (d, e) =>
  match d.seek (isInner e.tree) with
  | (none, d) => .ok none (d, e)
  | (some slot, d) =>
    match Engine.expandNode rules slot e with
    | .error err e => .error err (d, e)
    | .ok expansion e => .ok (some expansion) (d.opened (expansion.moves.map Move.slot), e)

end Deepening

end SearchLab.Game
