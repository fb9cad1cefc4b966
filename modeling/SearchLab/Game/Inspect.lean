import SearchLab.Game.Engine
import SearchLab.Property

/-!
# The properties of a position

A position of a game tree shows what is known of it. Nothing of that can be set but a trigger, which expands the
position.
-/

namespace SearchLab.Game.Engine

variable {π υ : Type} [Position π υ]

/-- The name of the trigger that expands a position. -/
def expandTrigger : String := "__expand"

/-- Whether a game ends at a position, and how. -/
def endProperties [Score υ] (p : π) : List Property :=
  { name := "isTerminal", type := .flag, value := .bool (Position.isTerminal p), fixed := true,
    title := some "Terminal?" } ::
  if Position.isTerminal p then
    [{ name := "score", type := .number, value := Score.toJson (Position.score p), fixed := true }]
  else []

/-- The properties of the position in a slot; there are none where there is no position. -/
def propertiesAt [Score υ] (e : Engine π υ) (slot : Nat) : List Property :=
  match e.tree.entry? slot with
  | none => []
  | some entry =>
    let orNull {α : Type} (value : Option α) (toJson : α → Json) : Json := (value.map toJson).getD .null
    [ { name := "id", type := .text, value := .text (Position.id entry.position), fixed := true },
      { name := "player", type := .any, fixed := true
        value := orNull (Position.player entry.position) fun p => .text p.name } ] ++
    endProperties entry.position ++
    [ { name := "utility", type := .any, value := orNull entry.utility Score.toJson, fixed := true },
      { name := "pathCount", type := .number, value := .nat (e.tree.pathCount slot).toNat, fixed := true },
      { name := expandTrigger, type := .flag, value := .bool (e.tree.isExpanded slot), trigger := true,
        title := some "Expand" } ]

omit [Position π υ] in
/-- That there is a position in a slot. -/
def checkPosition (e : Engine π υ) (slot : Nat) : Except Error Unit :=
  if (e.tree.entry? slot).isSome then .ok () else .error (.treeNodeMissing slot)

/-- The id that an inspector shows for the position in a slot. -/
def identityAt (e : Engine π υ) (slot : Nat) : Json :=
  match e.tree.position? slot with
  | some p => .text (Position.id p)
  | none => .null

/-- Sets a property of the position in a slot, and says whether it had an effect. -/
def setPropertyAt [Score υ] (rules : Rules π) (slot : Nat) (name : String) (value : Json) :
    Edit (Engine π υ) Bool := fun e =>
  match Property.checkUpdate (e.propertiesAt slot) name value with
  | .error err => .error err e
  | .ok none => .ok false e
  | .ok (some _) =>
    if name = expandTrigger then
      match expandNode rules slot e with
      | .error err e => .error err e
      | .ok _ e => .ok true e
    else .ok false e

end SearchLab.Game.Engine
