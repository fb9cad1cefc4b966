/-!
# Players

Two players move in turn or not: the one who wants a high score, and the one who wants a low one.
-/

namespace SearchLab.Game

/-- A player of a game. -/
inductive Player where
  /-- Wants a high score. -/
  | max
  /-- Wants a low score. -/
  | min
deriving DecidableEq, Repr

namespace Player

/-- The player behind a sign: 1 or -1. -/
def ofSign? (sign : Int) : Option Player :=
  if sign = 1 then some max else if sign = -1 then some min else none

/-- The other player. -/
def opponent : Player → Player
  | max => min
  | min => max

/-- The word for a player. -/
def name : Player → String
  | max => "max"
  | min => "min"

/-- The word for a player in stored data. -/
def tag : Player → String
  | max => "Max"
  | min => "Min"

/-- The player that a word in stored data names. -/
def ofTag? (word : String) : Option Player := [max, min].find? (fun p => p.tag = word)

@[simp] theorem opponent_opponent (p : Player) : p.opponent.opponent = p := by cases p <;> rfl

end Player

end SearchLab.Game
