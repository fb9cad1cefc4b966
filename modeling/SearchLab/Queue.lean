import SearchLab.Error

/-!
# Queues

A queue hands out its items in the order in which they were put in. It keeps the items at the front in order
and those at the back in reverse, so that both ends are at hand.

* `toList` — the items, front first;
* `toList_enqueue`, `dequeue?_eq` — what the two ends do to that list.
-/

namespace SearchLab

/-- A queue; `back` holds the items put in last, newest first. -/
structure Queue (α : Type) where
  front : List α := []
  back : List α := []

namespace Queue

variable {α : Type}

/-- The items, front first. -/
def toList (q : Queue α) : List α := q.front ++ q.back.reverse

/-- The queue of some items, the first one in front. -/
def ofList (items : List α) : Queue α := ⟨items, []⟩

/-- Puts an item at the back. -/
def enqueue (q : Queue α) (item : α) : Queue α := { q with back := item :: q.back }

/-- Puts items at the back, one after the other. -/
def extend (q : Queue α) (items : List α) : Queue α := items.foldl enqueue q

/-- The item in front and the queue behind it. -/
def dequeue? (q : Queue α) : Option (α × Queue α) :=
  match q.front with
  | x :: front => some (x, { q with front })
  | [] =>
    match q.back.reverse with
    | x :: front => some (x, ⟨front, []⟩)
    | [] => none

/-- The item in front. -/
def peek? (q : Queue α) : Option α := q.dequeue?.map Prod.fst

/-- The number of items. -/
def size (q : Queue α) : Nat := q.front.length + q.back.length

/-- Whether there is no item. -/
def isEmpty (q : Queue α) : Bool := q.size == 0

/-- Takes the item in front out of the queue. -/
def dequeue : Edit (Queue α) α := fun q =>
  match q.dequeue? with
  | some (x, rest) => .ok x rest
  | none => .error .queueEmpty q

/-- Looks at the item in front. -/
def peek (q : Queue α) : Except Error α :=
  match q.peek? with
  | some x => .ok x
  | none => .error .queueEmpty

@[simp] theorem toList_ofList (items : List α) : (ofList items).toList = items := by
  simp [ofList, toList]

@[simp] theorem toList_enqueue (q : Queue α) (item : α) : (q.enqueue item).toList = q.toList ++ [item] := by
  simp [enqueue, toList]

@[simp] theorem toList_extend (q : Queue α) (items : List α) : (q.extend items).toList = q.toList ++ items := by
  induction items generalizing q with
  | nil => simp [extend]
  | cons x xs ih =>
    have : q.extend (x :: xs) = (q.enqueue x).extend xs := rfl
    rw [this, ih]
    simp

/-- The front of a queue is the head of its list. -/
theorem dequeue?_eq (q : Queue α) :
    q.dequeue?.map (fun r => (r.1, r.2.toList)) = q.toList.head?.map (fun x => (x, q.toList.tail)) := by
  obtain ⟨front, back⟩ := q
  cases front with
  | cons x front => simp [dequeue?, toList]
  | nil =>
    cases h : back.reverse with
    | nil => simp [dequeue?, toList, h]
    | cons x front => simp [dequeue?, toList, h]

/-- The size is the length of the list. -/
theorem size_eq (q : Queue α) : q.size = q.toList.length := by
  simp [size, toList]

end Queue

end SearchLab
