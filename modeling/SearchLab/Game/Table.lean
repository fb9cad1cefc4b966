import SearchLab.Game.Rules

/-!
# Games as tables

A game can be written down as a table of its positions: each stands under a key, with the actions that it allows,
and an action names under `to` the key of the position that it leads to. Positions under several keys may share
an id, and are then one position.

A table as data:

    {"initial": "r", "positions": {"r": {"player": 1, "moves": [{"to": "a"}]}, "a": {"terminal": true}}}
-/

namespace SearchLab.Game

/-- A position of a table. -/
structure Place where
  key : String
  id : String
  player : Option Player
  isTerminal : Bool
  score : Float
  heuristic : Option Float
  moves : List Action

instance : Position Place Float where
  id := Place.id
  isTerminal := Place.isTerminal
  score := Place.score
  player := Place.player
  heuristic := Place.heuristic

/-- A game as a table. -/
structure Table where
  initial : Option String
  places : List Place

namespace Table

/-- The position under a key. -/
def place (t : Table) (key : String) : Except Error Place :=
  match t.places.find? (fun p => p.key = key) with
  | some p => .ok p
  | none => .error (.raised .script s!"unknown position {key}")

/-- The position that an action leads to. -/
def target (t : Table) (action : Action) : Except Error Place :=
  match Bag.text? action "to" with
  | some key => t.place key
  | none => .error (.raised .script "action without target")

/-- The rules that a table gives. A table that is broken cannot tell the actions. -/
def rules (t : Table) (broken : Option String) : Rules Place where
  initial :=
    match t.initial with
    | some key => t.place key
    | none => .error (.raised .script "no initial position")
  actions p :=
    match broken with
    | some message => .error (.raised .script message)
    | none => .ok p.moves
  result _ action := t.target action

/-! ## Tables as data -/

/-- The items of a value that is a list. -/
def items : Option Json → List Json
  | some (.list items) => items
  | _ => []

/-- A position as data. `float?` reads a number. -/
def placeOf (float? : Json → Option Float) (key : String) (data : Bag) : Place :=
  { key
    id := (data.text? "id").getD key
    player := (data.get? "player").bind fun
      | .number (.int sign) => Player.ofSign? sign
      | _ => none
    isTerminal := (data.bool? "terminal").getD false
    score := ((data.get? "score").bind float?).getD 0.0
    heuristic := (data.get? "h").bind float?
    moves := (items (data.get? "moves")).filterMap Json.members? }

/-- A table as data. `float?` reads a number. -/
def ofBag (float? : Json → Option Float) (data : Bag) : Table :=
  { initial := data.text? "initial"
    places := (((data.get? "positions").bind Json.members?).getD []).map fun (key, place) =>
      placeOf float? key ((place.members?).getD []) }

end Table

end SearchLab.Game
