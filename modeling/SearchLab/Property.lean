import SearchLab.Error

/-!
# Properties

Whatever can be inspected shows a list of properties: a name, the type of its values, the present value, and
the rules for changing it. `checkUpdate` applies those rules to one change, in a fixed order, before anything
is changed; `refusals` applies them to a whole batch.

* `checkUpdate_eq_none_iff` — a change is passed over exactly when no property has its name.
-/

namespace SearchLab

/-- The types of property values. -/
inductive PropertyType where
  | text
  | number
  | flag
  /-- Any value, also an object or null. -/
  | any
deriving DecidableEq, Repr

namespace PropertyType

/-- The word for a type. -/
def name : PropertyType → String
  | text => "string"
  | number => "number"
  | flag => "boolean"
  | any => "any"

/-- All types, in the order in which they are listed. -/
def all : List PropertyType := [text, number, flag, any]

/-- The type that a word names. -/
def ofName? (word : String) : Option PropertyType :=
  all.find? (fun t => t.name = word)

/-- Whether a value has this type. -/
def accepts : PropertyType → Json → Bool
  | text, .text _ => true
  | number, .number _ => true
  | flag, .bool _ => true
  | any, _ => true
  | _, _ => false

end PropertyType

/-- One property of an entity, with its present value. -/
structure Property where
  name : String
  type : PropertyType
  value : Json
  /-- The value may never be set. -/
  fixed : Bool := false
  /-- Setting the value to "yes" starts an action; nothing else can be set. -/
  trigger : Bool := false
  /-- The only values that may be set. -/
  options : Option (List Json) := none
  /-- The property is not shown. -/
  hidden : Bool := false
  /-- A change is applied while it is typed. -/
  dynamic : Bool := false
  /-- The name shown to a person. -/
  title : Option String := none
  description : Option String := none
  /-- A test that a new value must pass. -/
  test : Option (Json → Bool) := none

namespace Property

/-- A property can no longer be used when it is fixed, or a trigger whose action has started. -/
def isDisabled (p : Property) : Bool :=
  p.fixed || (p.trigger && p.value.isTruthy)

/-- The rule that a new value of a property breaks first. -/
def refusal? (p : Property) (value : Json) : Option Error :=
  if p.fixed then some (.propertyFixed p.name)
  else if (p.options.any fun options => !options.any (·.same value)) then
    some (.propertyNotAmong p.name ((p.options.getD []).map Json.write))
  else if p.trigger && !value.isTruthy then some (.propertyNotTriggered p.name)
  else if !p.type.accepts value then some (.propertyOfType p.name p.type.name)
  else if (p.test.any fun test => !test value) then some (.propertyCheckFailed p.name)
  else none

/-- The first property with a name. -/
def find? (properties : List Property) (name : String) : Option Property :=
  properties.find? (fun p => p.name = name)

/-- The property that a change addresses, if there is one; a change that breaks a rule is an error. -/
def checkUpdate (properties : List Property) (name : String) (value : Json) :
    Except Error (Option Property) :=
  match find? properties name with
  | none => .ok none
  | some p =>
    match p.refusal? value with
    | some e => .error e
    | none => .ok (some p)

/-- A change is passed over exactly when no property has its name. -/
theorem checkUpdate_eq_none_iff (properties : List Property) (name : String) (value : Json) :
    checkUpdate properties name value = .ok none ↔ ∀ p ∈ properties, p.name ≠ name := by
  unfold checkUpdate find?
  cases h : properties.find? (fun p => decide (p.name = name)) with
  | none => simpa using h
  | some p =>
    have hp : p ∈ properties ∧ p.name = name :=
      ⟨List.mem_of_find?_eq_some h, by simpa using List.find?_some h⟩
    have : ¬ ∀ p ∈ properties, p.name ≠ name := fun hall => hall p hp.1 hp.2
    cases hr : p.refusal? value <;> simp [hr, this]

/-- The texts of all refusals in a batch of changes. -/
def refusals (properties : List Property) (changes : List (String × Json)) : List String :=
  changes.filterMap fun (name, value) =>
    match checkUpdate properties name value with
    | .ok (some _) => none
    | .ok none => some s!"Property {name} is not a valid property for this component."
    | .error e => some e.message

/-- The present value of the property with a name. -/
def read (properties : List Property) (name : String) : Except Error Json :=
  match find? properties name with
  | some p => .ok p.value
  | none => .error (.propertyMissing name)

end Property

/-- A property as a value. -/
def Property.toJson (p : Property) : Json :=
  .object
    [ ("name", .text p.name), ("kind", .text p.type.name), ("value", p.value), ("fixed", .bool p.fixed),
      ("trigger", .bool p.trigger), ("options", .ofOption .list p.options), ("hidden", .bool p.hidden),
      ("dynamic", .bool p.dynamic), ("display", .ofOption .text p.title),
      ("description", .ofOption .text p.description), ("check", .bool p.test.isSome),
      ("disabled", .bool p.isDisabled) ]

/-- A double without a fraction: a word without a sign holds it, or it is too large for any, and then it has none. -/
def Double.isWhole (x : Float) : Bool := x.toUInt64.toFloat == x || x.toUInt64.toNat + 1 == UInt64.size

/-- A number above zero without a fraction. -/
def Json.isPositiveWhole : Json → Bool
  | .number n => 0.0 < n.toFloat && Double.isWhole n.toFloat
  | _ => false

end SearchLab
