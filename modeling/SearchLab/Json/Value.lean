/-!
# Data values

A data value is null, a truth value, a number, a text, a list of values, or an object: a list of members, each a
key with a value, in the order in which the keys were first written. A number keeps whether it was written as an
integer, so `1` and `1.0` are different values.

* `Json.isTruthy` — which values count as "yes" where a flag is loosely typed;
* `Json.same` — equality of values, blind to the order of an object's members;
* `Json.Distinct` — no object inside the value has a key twice.
-/

namespace SearchLab

/-- A number of a data value: an integer between `-2^63` and `2^64 - 1`, or a finite double. -/
inductive Number where
  | int (n : Int)
  | float (x : Float)
deriving Inhabited

namespace Number

/-- The double nearest to a number. -/
def toFloat : Number → Float
  | int n => Float.ofInt n
  | float x => x

/-- Numbers are the same when they are of one form and equal. -/
def same : Number → Number → Bool
  | int m, int n => m == n
  | float x, float y => x == y
  | _, _ => false

end Number

/-- A data value; an object is its members in order. -/
inductive Json where
  | null
  | bool (b : Bool)
  | number (n : Number)
  | text (s : String)
  | list (items : List Json)
  | object (members : List (String × Json))
deriving Inhabited

namespace Json

/-- An integer as a value. -/
def int (n : Int) : Json := .number (.int n)

/-- A natural number as a value. -/
def nat (n : Nat) : Json := .number (.int n)

/-- A double as a value: null where no number of a data value can hold it. -/
def ofFloat (x : Float) : Json :=
  if x.isNaN || x.isInf then .null else .number (.float x)

/-- A double as a value, also where no number of a data value can hold it: then as a word. -/
def ofExtended (x : Float) : Json :=
  if x.isNaN then .text "nan"
  else if x.isInf then .text (if x < 0.0 then "-inf" else "inf")
  else .number (.float x)

/-- What may be missing as a value: null where it is. -/
def ofOption {α : Type} (toJson : α → Json) : Option α → Json
  | some a => toJson a
  | none => .null

/-- Texts as a value. -/
def texts (items : List String) : Json := .list (items.map .text)

/-- The truth value that a value is. -/
def bool? : Json → Option Bool
  | bool b => some b
  | _ => none

/-- The number that a value is. -/
def number? : Json → Option Number
  | number n => some n
  | _ => none

/-- The text that a value is. -/
def text? : Json → Option String
  | text s => some s
  | _ => none

/-- The members of a value that is an object. -/
def members? : Json → Option (List (String × Json))
  | object ms => some ms
  | _ => none

/-- The natural number that a value is. -/
def nat? : Json → Option Nat
  | number (.int n) => if 0 ≤ n then some n.toNat else none
  | _ => none

/-- The word that a value spells: a text, or an object whose only key it is, with null under it. -/
def word? : Json → Option String
  | text s => some s
  | object [(key, null)] => some key
  | _ => none

/-- A value counts as "yes" unless it is null, false, a zero or the empty text. -/
def isTruthy : Json → Bool
  | null => false
  | bool b => b
  | number n => n.toFloat != 0.0
  | text s => !s.isEmpty
  | list _ => true
  | object _ => true

/-- The value of the first member with a key. -/
def lookup (key : String) : List (String × Json) → Option Json
  | [] => none
  | (k, v) :: ms => if k = key then some v else lookup key ms

/-- Members with a value stored under a key: in the key's place if it has one, else at the end. -/
def store (key : String) (value : Json) : List (String × Json) → List (String × Json)
  | [] => [(key, value)]
  | (k, v) :: ms => if k = key then (k, value) :: ms else (k, v) :: store key value ms

mutual

/-- Whether two values are equal, the order of an object's members left out of account. -/
def same : Json → Json → Bool
  | null, null => true
  | bool a, bool b => a == b
  | number a, number b => a.same b
  | text a, text b => a == b
  | list as, list bs => sameItems as bs
  | object as, object bs => as.length == bs.length && sameMembers as bs
  | _, _ => false

/-- Whether two lists hold equal values in the same order. -/
def sameItems : List Json → List Json → Bool
  | [], [] => true
  | a :: as, b :: bs => a.same b && sameItems as bs
  | _, _ => false

/-- Whether each of the first members has an equal partner of its key among the second. -/
def sameMembers : List (String × Json) → List (String × Json) → Bool
  | [], _ => true
  | (k, a) :: as, bs =>
    (match lookup k bs with
      | some b => a.same b
      | none => false) && sameMembers as bs

end

mutual

/-- No object inside the value has a key twice. -/
def Distinct : Json → Prop
  | list items => DistinctItems items
  | object ms => (ms.map Prod.fst).Nodup ∧ DistinctMembers ms
  | _ => True

/-- `Distinct` for each value of a list. -/
def DistinctItems : List Json → Prop
  | [] => True
  | v :: vs => v.Distinct ∧ DistinctItems vs

/-- `Distinct` for the value of each member. -/
def DistinctMembers : List (String × Json) → Prop
  | [] => True
  | (_, v) :: ms => v.Distinct ∧ DistinctMembers ms

end

end Json

end SearchLab
