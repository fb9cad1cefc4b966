import SearchLab.Proofs.Graph.Grid

/-!
# The cells of a lattice

A cell is found by its place: the id of the place leads to a slot, and the slot to a node. On a lattice the cells within
the bounds are found, each node at its own place, and what changes one cell or one edge leaves all other cells alone.
-/

namespace SearchLab.Graph

/-- The node of the cell at a place. -/
def nodeAt? (g : Graph) (x y : Nat) : Option Node := (g.slot? (cellId x y)).bind g.node?

theorem SameCells.modifyEdge {g g' : Graph} (h : SameCells g g') (id : EdgeId) (f : Edge → Edge) :
    SameCells g (g'.modifyEdge id f) :=
  h.trans ((SameCells.updateEdge g' id _).trans ⟨rfl, rfl, rfl, rfl, rfl⟩)

theorem SameCells.turnEdge {g g' : Graph} (h : SameCells g g') (id : EdgeId) :
    SameCells g (g'.updateEdge id fun e => some (turned e)).restructured :=
  h.trans ((SameCells.updateEdge g' id _).trans ⟨rfl, rfl, rfl, rfl, rfl⟩)

/-- Two graphs have their cells in the same slots, and the same ends. -/
structure SamePlaces (g g' : Graph) : Prop where
  places : ∀ s, g'.placeOf? s = g.placeOf? s
  start : g'.start = g.start
  goal : g'.goal = g.goal

theorem SamePlaces.trans {g g' g'' : Graph} (h : SamePlaces g g') (h' : SamePlaces g' g'') : SamePlaces g g'' where
  places s := (h'.places s).trans (h.places s)
  start := h'.start.trans h.start
  goal := h'.goal.trans h.goal

theorem SameCells.samePlaces {g g' : Graph} (h : SameCells g g') : SamePlaces g g' where
  places := h.placeOf?
  start := h.start
  goal := h.goal

theorem SameCells.nodeAt? {g g' : Graph} (h : SameCells g g') (x y : Nat) : g'.nodeAt? x y = g.nodeAt? x y := by
  unfold Graph.nodeAt?
  rw [h.slot?]
  cases g.slot? (cellId x y) with
  | none => rfl
  | some slot => exact h.node? slot

/-- Nothing is asked of edges. -/
def Unchecked : Contact → Edge → Prop := fun _ _ => True

namespace Lattice

variable {Fit : Contact → Edge → Prop} {spec : GridSpec} {g : Graph}

theorem unchecked (h : Lattice Fit spec g) : Lattice Unchecked spec g :=
  h.refit fun _ _ _ => trivial

/-- Changing the node of a cell changes no other cell. -/
theorem nodeAt?_modifyNode (h : Lattice Fit spec g) {x y slot : Nat} (hslot : g.slot? (cellId x y) = some slot)
    (f : Node → Node) (u v : Nat) :
    (g.modifyNode slot f).nodeAt? u v = if (u, v) = (x, y) then (g.nodeAt? u v).map f else g.nodeAt? u v := by
  have hslots : ∀ id, (g.modifyNode slot f).slot? id = g.slot? id := fun _ => rfl
  unfold Graph.nodeAt?
  rw [hslots]
  by_cases hplace : (u, v) = (x, y)
  · obtain ⟨rfl, rfl⟩ := Prod.mk.inj hplace
    rw [if_pos rfl, hslot, Option.bind_some, Option.bind_some, node?_modifyNode, if_pos rfl]
  · rw [if_neg hplace]
    cases hother : g.slot? (cellId u v) with
    | none => rfl
    | some other =>
        have hne : slot ≠ other := by
          intro hsame
          rw [hsame, h.wired.slot?_cellId] at hslot
          rw [h.wired.slot?_cellId, hslot] at hother
          exact hplace (Option.some.inj hother).symm
        rw [Option.bind_some, Option.bind_some, node?_modifyNode, if_neg hne]

/-- The id of a cell is made from its place. -/
theorem idOf?_eq (h : Lattice Fit spec g) (s : Nat) : g.idOf? s = (g.placeOf? s).map fun p => cellId p.1 p.2 := by
  unfold idOf? placeOf?
  cases hn : g.node? s with
  | none => rfl
  | some n => exact congrArg some (h.wired.named hn)

/-- The node in a slot is found at its place. -/
theorem nodeAt?_of_place (h : Lattice Fit spec g) {s x y : Nat} (hs : g.placeOf? s = some (x, y)) :
    g.nodeAt? x y = g.node? s := by
  rw [Graph.nodeAt?, h.wired.slot?_cellId.mpr hs, Option.bind_some]

theorem nodeAt?_of_mem (h : Lattice Fit spec g) {n : Node} (hn : n ∈ g.nodeList) : g.nodeAt? n.x n.y = some n := by
  obtain ⟨slot, hslot⟩ := mem_nodeList.mp hn
  have hplace : g.placeOf? slot = some (n.x, n.y) := placeOf?_of_node? hslot
  rw [h.nodeAt?_of_place hplace, hslot]

/-- The node of a cell is among the nodes, and the cell within the bounds. -/
theorem mem_of_nodeAt? (h : Lattice Fit spec g) {x y : Nat} {n : Node} (hn : g.nodeAt? x y = some n) :
    n ∈ g.nodeList ∧ n.x = x ∧ n.y = y := by
  obtain ⟨slot, hslot, hnode⟩ := Option.bind_eq_some_iff.mp hn
  rw [h.wired.slot?_cellId, placeOf?, hnode, Option.map_some] at hslot
  obtain ⟨hx, hy⟩ := Prod.mk.inj (Option.some.inj hslot)
  exact ⟨mem_nodeList.mpr ⟨slot, hnode⟩, hx, hy⟩

/-- The cells that are there are those within the bounds. -/
theorem nodeAt?_isSome (h : Lattice Fit spec g) {x y : Nat} :
    (g.nodeAt? x y).isSome = true ↔ x < spec.width ∧ y < spec.height := by
  constructor
  · intro hsome
    obtain ⟨n, hn⟩ := Option.isSome_iff_exists.mp hsome
    obtain ⟨slot, hslot, -⟩ := Option.bind_eq_some_iff.mp hn
    exact h.inside (h.wired.slot?_cellId.mp hslot)
  · intro hinside
    obtain ⟨slot, hslot⟩ := h.filled hinside.1 hinside.2
    obtain ⟨n, hn, -⟩ := (h.wired.arena.lookup _ _).mp hslot
    rw [Graph.nodeAt?, hslot, Option.bind_some, hn]
    rfl

end Lattice

/-! ## Lattices of the same size -/

theorem exists_placeOf? {g : Graph} {s : Nat} (h : g.Live s) : ∃ place, g.placeOf? s = some place := by
  obtain ⟨n, hn⟩ := live_iff.mp h
  exact ⟨_, placeOf?_of_node? hn⟩

/-- A map of slots leads each cell of one graph to the cell of another one at the same place. -/
def Twins (g r : Graph) (twin : Nat → Nat) : Prop := ∀ s p, g.placeOf? s = some p → r.placeOf? (twin s) = some p

theorem exists_twins {Fit Fit' : Contact → Edge → Prop} {spec spec' : GridSpec} {g r : Graph} (hg : Lattice Fit spec g)
    (hr : Lattice Fit' spec' r) (hwidth : spec'.width = spec.width) (hheight : spec'.height = spec.height) :
    ∃ twin, Twins g r twin := by
  refine ⟨fun s => ((g.placeOf? s).bind fun p => r.slot? (cellId p.1 p.2)).getD 0, fun s p hp => ?_⟩
  obtain ⟨hx, hy⟩ := hg.inside hp
  obtain ⟨slot, hslot⟩ := hr.filled (hwidth ▸ hx) (hheight ▸ hy)
  dsimp only
  rw [hp, Option.bind_some, hslot, Option.getD_some]
  exact hr.wired.slot?_cellId.mp hslot

namespace Twins

variable {g r : Graph} {twin : Nat → Nat} {a b : Nat}

theorem injective (h : Twins g r twin) {Fit : Contact → Edge → Prop} (hg : Wired Fit g) (ha : g.Live a) (hb : g.Live b)
    (htwin : twin a = twin b) : a = b := by
  obtain ⟨place, hplace⟩ := exists_placeOf? ha
  obtain ⟨place', hplace'⟩ := exists_placeOf? hb
  have hsame := h b _ hplace'
  rw [← htwin, h a _ hplace] at hsame
  exact hg.slot_eq_of_place hplace (hplace'.trans hsame.symm)

/-- Twins touch as the cells do that they are twins of. -/
theorem contact? (h : Twins g r twin) (ha : g.Live a) (hb : g.Live b) :
    r.contact? (twin a) (twin b) = g.contact? a b := by
  obtain ⟨place, hplace⟩ := exists_placeOf? ha
  obtain ⟨place', hplace'⟩ := exists_placeOf? hb
  rw [contact?_of_places (h a _ hplace) (h b _ hplace'), contact?_of_places hplace hplace']

end Twins

end SearchLab.Graph
