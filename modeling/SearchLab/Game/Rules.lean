import SearchLab.Bag
import SearchLab.Capability
import SearchLab.Game.Player

/-!
# The rules of a game

The rules say where a game starts, which actions a position allows, and where an action leads. They come from
outside and may fail at any call. Of a position itself only what `Position` lists is known; positions with the
same id are the same position, however they were reached.

Scores and estimates are values of a type with an order, a `Score`.
-/

namespace SearchLab.Game

/-- What the outcome of a game is measured in. -/
class Score (υ : Type) where
  /-- Neither player is ahead. -/
  zero : υ
  /-- One outcome is lower than another. -/
  less : υ → υ → Bool
  /-- Two outcomes are worth the same. -/
  same : υ → υ → Bool
  /-- An outcome as a data value. -/
  toJson : υ → Json

instance : Score Float where
  zero := 0.0
  less x y := x < y
  same x y := x == y
  toJson := Json.ofFloat

/-- What is known of a position. -/
class Position (π : Type) (υ : outParam Type) where
  id : π → String
  /-- The game ends here. -/
  isTerminal : π → Bool
  /-- The outcome of a game that ends here. -/
  score : π → υ
  /-- Who is to move. -/
  player : π → Option Player
  /-- What a game is expected to end in that has come this far. -/
  heuristic : π → Option υ

/-- What is done in a position, as data. -/
abbrev Action : Type := Bag

/-- What an action is called: the text under `label` or `name`, or else all its data. -/
def Action.label (a : Action) : String :=
  ((Bag.text? a "label").orElse fun _ => Bag.text? a "name").getD (Bag.toText a)

/-- The rules of a game. -/
structure Rules (π : Type) where
  initial : Except Error π
  actions : π → Except Error (List Action)
  result : π → Action → Except Error π

/-- What some actions lead to, in order, unless the rules fail at one of them. -/
def Rules.results {π : Type} (rules : Rules π) (p : π) : List Action → Except Error (List (Action × π))
  | [] => .ok []
  | action :: actions =>
    match rules.result p action with
    | .error e => .error e
    | .ok next =>
      match rules.results p actions with
      | .error e => .error e
      | .ok rest => .ok ((action, next) :: rest)

/-- The actions that a position allows, each with what it leads to. -/
def Rules.branches {π : Type} (rules : Rules π) (p : π) : Except Error (List (Action × π)) :=
  match rules.actions p with
  | .error e => .error e
  | .ok actions => rules.results p actions

/-- The methods that the program of a game offers. -/
def rulesChecklist : List Method := [⟨"getInitialPosition", 0⟩, ⟨"getActions", 1⟩, ⟨"getResult", 2⟩]

/-- The methods that its positions offer. -/
def positionChecklist : List Method :=
  [⟨"isTerminal", 0⟩, ⟨"getScore", 0⟩, ⟨"render", 1⟩, ⟨"getId", 0⟩, ⟨"getPlayer", 0⟩]

/-- A move in a game tree: an action and the node that it leads to. -/
structure Move where
  /-- The id of the position that it leads to. -/
  id : String
  slot : Nat
  action : Action

/-- What expanding a position has shown: its moves. -/
structure Expansion where
  id : String
  moves : List Move

end SearchLab.Game
