import Std.Data.HashMap
import SearchLab.Graph.Entity

/-!
# Edges by node

An index lists, for each node slot, the edges that leave it: a stored edge stands under its source with its own
id and under its target with the negative one. So each edge is listed twice, once in each direction.

* `entries_add`, `entries_drop` — what adding an edge or dropping a node does to one list;
* `ofEdges` — the index of a list of edges, each added behind the ones before it.
-/

namespace SearchLab

/-- The edges that leave each node, by slot. -/
structure Adjacency where
  lists : Std.HashMap Nat (List EdgeId) := {}

namespace Adjacency

/-- The edges that leave a node, in both senses of their direction. -/
def entries (index : Adjacency) (slot : Nat) : List EdgeId := index.lists.getD slot []

/-- Replaces the list of a node. -/
def setEntries (index : Adjacency) (slot : Nat) (ids : List EdgeId) : Adjacency :=
  ⟨index.lists.insert slot ids⟩

/-- Puts an edge at the end of the list of a node. -/
def push (index : Adjacency) (slot : Nat) (id : EdgeId) : Adjacency :=
  index.setEntries slot (index.entries slot ++ [id])

/-- Takes an edge out of the list of a node, as often as it is there. -/
def pull (index : Adjacency) (slot : Nat) (id : EdgeId) : Adjacency :=
  index.setEntries slot ((index.entries slot).filter (· != id))

/-- Lists an edge under both of its ends. -/
def add (index : Adjacency) (e : Edge) : Adjacency :=
  (index.push e.source e.id).push e.target e.id.reversed

/-- Forgets an edge under both of its ends. -/
def remove (index : Adjacency) (e : Edge) : Adjacency :=
  (index.pull e.source e.id).pull e.target e.id.reversed

/-- Forgets the list of a node. -/
def drop (index : Adjacency) (slot : Nat) : Adjacency :=
  ⟨index.lists.erase slot⟩

/-- The index of some edges. -/
def ofEdges (edges : List Edge) : Adjacency := edges.foldl add {}

/-- The number of entries in all lists. -/
def size (index : Adjacency) : Nat :=
  index.lists.fold (fun n _ ids => n + ids.length) 0

/-- Whether no edge is listed. -/
def isEmpty (index : Adjacency) : Bool := index.size == 0

@[simp] theorem entries_empty (slot : Nat) : ({} : Adjacency).entries slot = [] := by
  simp [entries]

theorem entries_push (index : Adjacency) (slot other : Nat) (id : EdgeId) :
    (index.push slot id).entries other =
      index.entries other ++ if slot = other then [id] else [] := by
  by_cases h : slot = other <;> simp [push, setEntries, entries, Std.HashMap.getD_insert, h]

/-- A new edge comes last in the lists of its ends. -/
theorem entries_add (index : Adjacency) (e : Edge) (slot : Nat) :
    (index.add e).entries slot =
      index.entries slot ++ (if e.source = slot then [e.id] else []) ++
        (if e.target = slot then [e.id.reversed] else []) := by
  simp [add, entries_push]

/-- Dropping a node empties its list and keeps the others. -/
theorem entries_drop (index : Adjacency) (slot other : Nat) :
    (index.drop slot).entries other = if slot = other then [] else index.entries other := by
  by_cases h : slot = other <;> simp [drop, entries, Std.HashMap.getD_erase, h]

end Adjacency

end SearchLab
