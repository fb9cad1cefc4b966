import SearchLab.Game.Engine

/-!
# Evaluation

An evaluation gives each position that can be reached from a root its worth, and the moves that achieve it:

* a position at which the game ends is worth its score;
* a position that is not expanded, or without moves, is worth its estimate;
* any other is worth the highest or the lowest worth behind its moves, as its player wants.

Positions whose worth is known are taken as they are. A move that leads back into the present line counts as
even. The evaluation stops after each position and can be taken up again: its state is the stack of positions on
the present line, each with the moves that it still has to go through.

* `seek` ends: a turn takes a move off the top of the stack, or puts a position on it that was not there.
-/

namespace SearchLab.Game

/-- What a position was found to be worth. -/
structure Verdict (υ : Type) where
  slot : Nat
  utility : υ
  bestMoves : List Move := []

/-- Writes down what a position was found to be worth. -/
def Tree.settle {π υ : Type} (t : Tree π υ) (v : Verdict υ) : Tree π υ :=
  t.modifyEntry v.slot fun e => { e with utility := some v.utility, bestMoves := v.bestMoves }

namespace Evaluation

/-- A position on the present line, with the moves that it still has to go through. -/
structure Frame (υ : Type) where
  slot : Nat
  player : Player
  moves : List Move
  /-- The best that was found behind the moves so far. -/
  best : Option υ := none
  /-- The moves that achieve it. -/
  bestMoves : List Move := []

/-- How a position is approached: its worth is at hand, or its moves have to be gone through. -/
inductive Approach (υ : Type) where
  | leaf (utility : υ)
  | inner (player : Player) (moves : List Move)

end Evaluation

/-- An evaluation on its way. -/
structure Evaluation (υ : Type) where
  /-- The root, until it has been approached. -/
  root : Option Nat
  /-- The positions on the present line, the deepest one first. -/
  stack : List (Evaluation.Frame υ) := []

namespace Evaluation

variable {π υ : Type}

section

variable [Score υ]

/-- Whether a player would rather have one outcome than another. -/
def prefers : Player → υ → υ → Bool
  | .max, a, b => Score.less b a
  | .min, a, b => Score.less a b

/-- Takes note of what a move is worth. -/
def Frame.absorb (f : Frame υ) (utility : υ) (move : Move) (moves : List Move) : Frame υ :=
  match f.best with
  | none => { f with moves, best := some utility, bestMoves := [move] }
  | some best =>
    if prefers f.player utility best then { f with moves, best := some utility, bestMoves := [move] }
    else if Score.same best utility then { f with moves, bestMoves := f.bestMoves ++ [move] }
    else { f with moves }

@[simp] theorem Frame.slot_absorb (f : Frame υ) (utility : υ) (move : Move) (moves : List Move) :
    (f.absorb utility move moves).slot = f.slot := by
  unfold absorb
  repeat' split
  all_goals rfl

@[simp] theorem Frame.moves_absorb (f : Frame υ) (utility : υ) (move : Move) (moves : List Move) :
    (f.absorb utility move moves).moves = moves := by
  unfold absorb
  repeat' split
  all_goals rfl

@[simp] theorem Frame.player_absorb (f : Frame υ) (utility : υ) (move : Move) (moves : List Move) :
    (f.absorb utility move moves).player = f.player := by
  unfold absorb
  repeat' split
  all_goals rfl

/-- What a position is worth whose moves have all been gone through. -/
def Frame.verdict (f : Frame υ) : Verdict υ := ⟨f.slot, f.best.getD Score.zero, f.bestMoves⟩

end

/-- The evaluation from a node. -/
def ofRoot (root : Nat) : Evaluation υ := { root := some root }

/-- Whether the position in a slot is on the present line. -/
def isOnLine (s : Evaluation υ) (slot : Nat) : Bool := s.stack.any (·.slot == slot)

variable [Position π υ] [Score υ]

/-- How the position in a slot is approached. -/
def approach (t : Tree π υ) (slot : Nat) : Except Error (Approach υ) :=
  match t.entry? slot with
  | none => .error (.treeNodeMissing slot)
  | some entry =>
    if Position.isTerminal entry.position then .ok (.leaf (Position.score entry.position))
    else
      match entry.moves with
      | some (move :: moves) =>
        match Position.player entry.position with
        | some player => .ok (.inner player (move :: moves))
        | none => .error .playerMissing
      | _ => .ok (.leaf ((Position.heuristic entry.position).getD Score.zero))

/-- Only a position of the tree has moves to be gone through. -/
theorem lt_size_of_approach {t : Tree π υ} {slot : Nat} {player : Player} {moves : List Move}
    (h : approach t slot = .ok (.inner player moves)) : slot < t.size := by
  unfold approach Tree.entry? at h
  cases he : t.entries[slot]? with
  | none => simp [he] at h
  | some entry => exact (Array.getElem?_eq_some_iff.1 he).1

omit [Position π υ] [Score υ] in
/-- The number of positions of a tree that are not on the present line. -/
def offLine (t : Tree π υ) (s : Evaluation υ) : Nat :=
  ((List.range t.size).filter fun slot => !s.isOnLine slot).length

omit [Position π υ] [Score υ] in
/-- A position that joins the line leaves one fewer off it. -/
theorem offLine_push {t : Tree π υ} {s : Evaluation υ} {f : Frame υ} (root : Option Nat)
    (hsize : f.slot < t.size) (hoff : s.isOnLine f.slot = false) :
    offLine t { root, stack := f :: s.stack } < offLine t s := by
  have split : (List.range t.size).filter
      (fun slot => !({ root, stack := f :: s.stack } : Evaluation υ).isOnLine slot) =
      ((List.range t.size).filter fun slot => !s.isOnLine slot).filter (f.slot != ·) := by
    rw [List.filter_filter]
    congr 1
    funext slot
    simp [isOnLine, bne]
  unfold offLine
  rw [split, List.length_filter_lt_length_iff_exists]
  exact ⟨f.slot, by simp [hsize, hoff], by simp⟩

omit [Position π υ] [Score υ] in
/-- The moves that are left at the top of the stack. -/
def movesLeft (s : Evaluation υ) : Nat :=
  match s.stack with
  | [] => 0
  | f :: _ => f.moves.length

omit [Position π υ] in
/-- Taking note of a move leaves the line as it is, and one move fewer to go through. -/
theorem lex_absorb {t : Tree π υ} {s : Evaluation υ} {f : Frame υ} {below : List (Frame υ)} {move : Move}
    {moves : List Move} {utility : υ} (hs : s.stack = f :: below) (hm : f.moves = move :: moves) :
    Prod.Lex (· < ·) (· < ·)
      (offLine t { s with stack := f.absorb utility move moves :: below },
        movesLeft { s with stack := f.absorb utility move moves :: below })
      (offLine t s, movesLeft s) := by
  have same : offLine t { s with stack := f.absorb utility move moves :: below } = offLine t s := by
    simp [offLine, isOnLine, hs]
  rw [same]
  exact .right _ (by simp [movesLeft, hs, hm])

/-- The next position whose worth is found, if any is left, and the evaluation that has come to it. -/
def seek (t : Tree π υ) (s : Evaluation υ) : Except Error (Option (Verdict υ)) × Evaluation υ :=
  match _hr : s.root with
  | some root =>
    match approach t root with
    | .error e => (.error e, s)
    | .ok (.leaf utility) => (.ok (some ⟨root, utility, []⟩), { s with root := none })
    | .ok (.inner player moves) =>
      seek t { root := none, stack := { slot := root, player, moves } :: s.stack }
  | none =>
    match _hs : s.stack with
    | [] => (.ok none, s)
    | f :: below =>
      match _hm : f.moves with
      | [] => (.ok (some f.verdict), { s with stack := below })
      | move :: moves =>
        match t.utility? move.slot with
        | some utility => seek t { s with stack := f.absorb utility move moves :: below }
        | none =>
          if _ho : s.isOnLine move.slot then
            seek t { s with stack := f.absorb Score.zero move moves :: below }
          else
            match _ha : approach t move.slot with
            | .error e => (.error e, s)
            | .ok (.leaf utility) => (.ok (some ⟨move.slot, utility, []⟩), s)
            | .ok (.inner player moves) =>
              seek t { s with stack := { slot := move.slot, player, moves } :: s.stack }
termination_by (s.root.toList.length, offLine t s, movesLeft s)
decreasing_by
  · exact .left _ _ (by simp [_hr])
  · exact .right _ (lex_absorb _hs _hm)
  · exact .right _ (lex_absorb _hs _hm)
  · exact .right _ (.left _ _ (offLine_push s.root (lt_size_of_approach _ha) (by simpa using _ho)))

/-- Finds the worth of the next position; none is left when the evaluation is done. -/
def step : Edit (Evaluation υ × Engine π υ) (Option (Verdict υ)) := fun (s, e) =>
  match s.seek e.tree with
  | (.error err, s) => .error err (s, e)
  | (.ok none, s) => .ok none (s, e)
  | (.ok (some verdict), s) => .ok (some verdict) (s, { e with tree := e.tree.settle verdict })

end Evaluation

end SearchLab.Game
