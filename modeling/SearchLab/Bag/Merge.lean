import SearchLab.Bag

/-!
# Merging bags

Merging a bag into another one takes over each of its members: where both have an object under a key, the
objects are merged, and otherwise the newcomer's value stands. Objects more than `maxDepth` levels deep are
refused; what was merged before stays merged.
-/

namespace SearchLab.Bag

/-- The number of nested objects, the outermost one included, that a merge goes into. -/
def maxDepth : Nat := 128

mutual

/-- Merges the members of `source` into a bag, going at most `room` levels deeper. -/
def mergeMembers (room : Nat) : List (String × Json) → Bag → EStateM.Result Error Bag Unit
  | [], target => .ok () target
  | (key, value) :: rest, target =>
    match mergeValue room key value target with
    | .ok _ target => mergeMembers room rest target
    | .error e target => .error e target

/-- Merges one value into a bag under its key. -/
def mergeValue (room : Nat) (key : String) : Json → Bag → EStateM.Result Error Bag Unit
  | .object nested, target =>
    match target.get? key with
    | some (.object existing) =>
      match room with
      | 0 => .error .mergeTooDeep target
      | room + 1 =>
        match mergeMembers room nested existing with
        | .ok _ merged => .ok () (target.set key (.object merged))
        | .error e merged => .error e (target.set key (.object merged))
    | _ => .ok () (target.set key (.object nested))
  | value, target => .ok () (target.set key value)

end

/-- Merges `source` into the bag that is edited. -/
def mergeWith (source : Bag) : Edit Bag Unit := mergeMembers (maxDepth - 1) source

/-- The two bags merged; where they cannot both stand, `b` wins. -/
def merge (a b : Bag) : Except Error Bag :=
  match mergeWith a [] with
  | .error e _ => .error e
  | .ok _ copy =>
    match mergeWith b copy with
    | .error e _ => .error e
    | .ok _ merged => .ok merged

end SearchLab.Bag
