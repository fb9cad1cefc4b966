import SearchLab.Error
import SearchLab.Json.Reader

/-!
# Bags of data

A bag is what a node, an edge, a move or a style carries: values under keys, in the order in which the keys
were first set.

* `get?`, `set`, `erase` — erasing a key moves the last one into its place;
* `float?`, `bool?`, `text?`, `isTruthy` — reads that take a value of another type for a missing one;
* `splitStyle` — the object under `style` apart from all other keys;
* `ofText`, `toText` — a bag as text.
-/

namespace SearchLab

/-- Values under keys, in the order in which the keys were first set. -/
abbrev Bag : Type := List (String × Json)

namespace Bag

/-- The bag without keys. -/
def empty : Bag := []

/-- The value under a key. -/
def get? (bag : Bag) (key : String) : Option Json := Json.lookup key bag

/-- The keys in order. -/
def keys (bag : Bag) : List String := bag.map Prod.fst

/-- The bag with a value under a key, in the key's place if it has one and else behind all others. -/
def set (bag : Bag) (key : String) (value : Json) : Bag := Json.store key value bag

/-- The bag without a key, where `last` is the member that closes the hole. -/
def eraseWith (key : String) (last : String × Json) : Bag → Bag
  | [] => []
  | (k, v) :: ms => if k = key then last :: ms.dropLast else (k, v) :: eraseWith key last ms

/-- The bag without a key: the last member moves into the hole. -/
def erase (bag : Bag) (key : String) : Bag :=
  match bag.getLast? with
  | none => []
  | some last => if last.1 = key then bag.dropLast else eraseWith key last bag

/-- The truth value under a key. -/
def bool? (bag : Bag) (key : String) : Option Bool := (bag.get? key).bind Json.bool?

/-- The number under a key. -/
def number? (bag : Bag) (key : String) : Option Number := (bag.get? key).bind Json.number?

/-- The text under a key. -/
def text? (bag : Bag) (key : String) : Option String := (bag.get? key).bind Json.text?

/-- Whether the value under a key counts as "yes". -/
def isTruthy (bag : Bag) (key : String) : Bool :=
  match bag.get? key with
  | some value => value.isTruthy
  | none => false

/-- A bag as a value. -/
def toJson (bag : Bag) : Json := .object bag

/-- The bag that a value is. -/
def ofJson : Json → Except Error Bag
  | .object members => .ok members
  | other => .error (.objectExpected other.write)

/-- A bag as text. -/
def toText (bag : Bag) : String := bag.toJson.write

/-- The object under `style` apart from the other keys. Under `style` any other value is data like the rest. -/
def splitStyle (bag : Bag) : Bag × Bag :=
  match bag.get? "style" with
  | some (.object style) => (bag.filter (fun m => m.1 != "style"), style)
  | _ => (bag, [])

/-- Why a text is no bag. -/
inductive TextError where
  /-- It is, or begins as, a value that is no object. -/
  | notAnObject
  | malformed (e : Json.SyntaxError)

/-- The bag that a text spells. A text that begins as another value is refused for that, unless the value
itself is malformed. -/
def ofText (text : String) : Except TextError Bag :=
  match text.toList.dropWhile Json.isGap with
  | '[' :: _ => .error .notAnObject
  | cs =>
    match Json.read text with
    | .ok (.object members) => .ok members
    | .ok _ => .error .notAnObject
    | .error e =>
      if e.fault = .trailingCharacters && cs.head? != some '\x7b' then .error .notAnObject
      else .error (.malformed e)

/-- Setting a key keeps the keys in their order; a new one comes last. -/
theorem keys_set (bag : Bag) (key : String) (value : Json) :
    (bag.set key value).keys = if key ∈ bag.keys then bag.keys else bag.keys ++ [key] := by
  induction bag with
  | nil => simp [set, keys, Json.store]
  | cons m ms ih =>
    obtain ⟨k, v⟩ := m
    simp only [set, keys] at ih
    by_cases h : k = key
    · simp [set, keys, Json.store, h]
    · have h' : ¬ key = k := fun e => h e.symm
      simp only [set, keys, Json.store, h, if_false, List.map_cons, ih, List.mem_cons, h', false_or]
      by_cases hm : key ∈ List.map Prod.fst ms <;> simp [hm]

/-- A value that was set is read back under its key, and the other keys keep theirs. -/
theorem get?_set (bag : Bag) (key other : String) (value : Json) :
    (bag.set key value).get? other = if key = other then some value else bag.get? other := by
  induction bag with
  | nil => simp [set, get?, Json.store, Json.lookup]
  | cons m ms ih =>
    obtain ⟨k, v⟩ := m
    simp only [set, get?] at ih
    by_cases h : k = key
    · subst h
      by_cases h' : k = other <;> simp [set, get?, Json.store, Json.lookup, h']
    · by_cases h' : k = other
      · subst h'
        have : ¬ key = k := fun e => h e.symm
        simp [set, get?, Json.store, Json.lookup, h, this]
      · simp [set, get?, Json.store, Json.lookup, h, h', ih]

end Bag

end SearchLab
