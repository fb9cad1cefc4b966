import SearchLab.Bag
import SearchLab.Word

/-!
# Nodes, edges and how they are addressed

An edge is stored once, in the direction in which it was added, and seen from both of its ends: `EdgeId n` is
stored edge `n` forwards, `EdgeId (-n)` the same edge backwards. `Target` addresses whatever has properties: the
graph itself, a node by its id, an edge in one of its directions.
-/

namespace SearchLab

/-- An edge in one of its two directions: a positive id forwards, its negative backwards. -/
structure EdgeId where
  signed : Int
deriving DecidableEq, Repr

namespace EdgeId

/-- The edge with an id, which zero is not. -/
def ofInt? (raw : Int) : Option EdgeId := if raw = 0 then none else some ⟨raw⟩

/-- The id that a value spells: any integer of 64 bits. -/
def ofJson? : Json → Option EdgeId
  | .number (.int n) => if Word.fits n then some ⟨n⟩ else none
  | _ => none

/-- An id as a value: a word with a sign, so what has no opposite there is its own. -/
def toJson (id : EdgeId) : Json := .int (Word.wrap id.signed)

/-- Whether the edge is seen backwards. -/
def isReverse (id : EdgeId) : Bool := id.signed < 0

/-- The edge seen forwards. -/
def stored (id : EdgeId) : EdgeId := ⟨id.signed.natAbs⟩

/-- The edge seen in the other direction. -/
def reversed (id : EdgeId) : EdgeId := ⟨-id.signed⟩

@[simp] theorem reversed_reversed (id : EdgeId) : id.reversed.reversed = id := by
  simp [reversed]

@[simp] theorem stored_reversed (id : EdgeId) : id.reversed.stored = id.stored := by
  simp [reversed, stored]

end EdgeId

/-- How a search ended. -/
inductive Outcome where
  /-- It has not ended. -/
  | none
  | success
  | failure
deriving DecidableEq, Repr

namespace Outcome

/-- The word for an outcome. -/
def name : Outcome → String
  | none => "none"
  | success => "success"
  | failure => "failure"

/-- The outcome that a word names. -/
def ofName? (word : String) : Option Outcome :=
  [none, success, failure].find? (fun o => o.name = word)

end Outcome

/-- Whatever has properties. -/
inductive Target where
  | graph
  | node (id : String)
  | edge (id : EdgeId)
deriving DecidableEq, Repr

namespace Target

/-- The wording of an address. -/
def display : Target → String
  | graph => "graph"
  | node id => s!"node {id}"
  | edge id => s!"edge {id.signed}"

/-- The identity that an inspector shows. -/
def identity : Target → Json
  | graph => .int 0
  | node id => .text id
  | edge id => .int id.signed

/-- An address as a value. -/
def toJson : Target → Json
  | graph => .text "Graph"
  | node id => .object [("Node", .text id)]
  | edge id => .object [("Edge", .int id.signed)]

/-- The address that a value spells. -/
def ofJson? : Json → Option Target
  | .object [("Node", .text id)] => some (node id)
  | .object [("Edge", id)] => (EdgeId.ofJson? id).map edge
  | value => if value.word? = some "Graph" then some graph else none

end Target

/-- A node. On a grid it stands in column `x` of row `y`; elsewhere both are zero. -/
structure Node where
  slot : Nat
  id : String
  x : Nat := 0
  y : Nat := 0
  data : Bag := []
  style : Bag := []

namespace Node

/-- The keys that only show how far a search has come. -/
def transientKeys : List String := ["state", "highlighted"]

/-- A node blocks the way only when its data says so. -/
def isTraversable (n : Node) : Bool := n.data.bool? "traversable" != some false

/-- The label, or else the id. -/
def label (n : Node) : String := (n.data.text? "label").getD n.id

/-- How far a search has come with the node: nothing, `visited` or `expanded`. -/
def state (n : Node) : String := (n.data.text? "state").getD ""

/-- Whether a search points at the node. -/
def isHighlighted (n : Node) : Bool := (n.data.bool? "highlighted").getD false

end Node

/-- What an edge with these data costs: the number under `w`, where a zero or a missing number counts as 1. -/
def weightOf (data : Bag) : Number :=
  match data.number? "w" with
  | some w => if w.toFloat == 0.0 then .int 1 else w
  | none => .int 1

/-- An edge as it was added, with its positive id and the slots of its ends. -/
structure Edge where
  id : EdgeId
  source : Nat
  target : Nat
  bidirectional : Bool
  data : Bag := []
  style : Bag := []

namespace Edge

/-- What the edge costs. -/
def weight (e : Edge) : Number := weightOf e.data

/-- The data close the edge in both directions. -/
def isForbidden (e : Edge) : Bool := e.data.isTruthy "forbidden"

/-- The data turn a one-way edge around. -/
def isFlipped (e : Edge) : Bool := e.data.isTruthy "flipped"

/-- Whether the edge ends at a node. -/
def touches (e : Edge) (slot : Nat) : Bool := e.source == slot || e.target == slot

end Edge

/-- A stored edge seen in one of its directions. -/
structure EdgeView where
  edge : Edge
  reversed : Bool

namespace EdgeView

/-- The signed id. -/
def id (v : EdgeView) : EdgeId := if v.reversed then v.edge.id.reversed else v.edge.id

/-- The same edge in the other direction. -/
def reverse (v : EdgeView) : EdgeView := { v with reversed := !v.reversed }

/-- The slot where the view starts. -/
def source (v : EdgeView) : Nat := if v.reversed then v.edge.target else v.edge.source

/-- The slot where the view ends. -/
def target (v : EdgeView) : Nat := if v.reversed then v.edge.source else v.edge.target

@[simp] theorem source_reverse (v : EdgeView) : v.reverse.source = v.target := by
  cases h : v.reversed <;> simp [reverse, source, target, h]

@[simp] theorem target_reverse (v : EdgeView) : v.reverse.target = v.source := by
  cases h : v.reversed <;> simp [reverse, source, target, h]

end EdgeView

end SearchLab
