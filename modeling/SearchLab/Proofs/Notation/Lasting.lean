import SearchLab.Notation.Reader
import SearchLab.Proofs.Notation.Implied

/-!
# What lasts of a graph

A search marks nodes and edges in their data, and it marks the graph with how it ended. `Graph.lasting` is the graph
without these marks. A document is written of no more than that: the marks are left out of every object, they do not
take part in the tests for what a lattice implies, and no line tells how a search ended.

* `Graph.lasting_modifyNode`, `Graph.lasting_modifyEdge` — what is set under the key of a mark does not last;
* `write_lasting` — the document of a graph is the document of what lasts of it.
-/

namespace SearchLab

/-- The node without the marks of a search. -/
def Node.lasting (n : Node) : Node := { n with data := Notation.lasting n.data }

/-- The edge without the marks of a search. -/
def Edge.lasting (e : Edge) : Edge := { e with data := Notation.lasting e.data }

/-- The graph without the marks of a search, and drawn. -/
def Graph.lasting (g : Graph) : Graph :=
  { g with
    nodes := g.nodes.map (·.map Node.lasting)
    edges := g.edges.map (·.map Edge.lasting)
    needsRedraw := false
    outcome := .none }

/-! ## What does not last -/

/-- A change of one member that a view of the members does not see, the view of all of them does not see. -/
theorem map_modify_of_unseen {α β : Type} (view : α → β) (change : α → α) (h : ∀ a, view (change a) = view a)
    (members : Array α) (place : Nat) : (members.modify place change).map view = members.map view := by
  apply Array.ext_getElem?
  intro i
  rw [Array.getElem?_map, Array.getElem?_map, Array.getElem?_modify]
  by_cases hi : place = i
  · cases members[i]? <;> simp [hi, h]
  · simp [hi]

/-- A mark that is set in data does not last. -/
theorem Notation.lasting_set_transient {key : String} (hkey : key ∈ Node.transientKeys) (data : Bag) (value : Json) :
    lasting (data.set key value) = lasting data := by
  have hpassed : isPassedOver [] key = true := by simpa [isPassedOver] using hkey
  rw [lasting_set, if_pos hpassed]

namespace Graph

theorem lasting_redraw (g : Graph) : g.redraw.lasting = g.lasting := rfl

/-- A mark that is set in the data of a node does not last. -/
theorem lasting_modifyNode {key : String} (hkey : key ∈ Node.transientKeys) (g : Graph) (slot : Nat) (value : Json) :
    (g.modifyNode slot fun n => { n with data := n.data.set key value }).lasting = g.lasting := by
  have hnodes := map_modify_of_unseen (Option.map Node.lasting)
    (Option.map fun n : Node => { n with data := n.data.set key value })
    (fun n => by cases n <;> simp [Node.lasting, Notation.lasting_set_transient hkey]) g.nodes slot
  simp only [lasting, modifyNode, hnodes]

/-- A mark that is set in the data of an edge does not last. -/
theorem lasting_modifyEdge {key : String} (hkey : key ∈ Node.transientKeys) (g : Graph) (id : EdgeId) (value : Json) :
    (g.modifyEdge id fun e => { e with data := e.data.set key value }).lasting = g.lasting := by
  cases hplace : place? id with
  | none => simp [modifyEdge, updateEdge, hplace, lasting_redraw]
  | some place =>
      have hedges := map_modify_of_unseen (Option.map Edge.lasting)
        (fun e : Option Edge => e.bind fun e => some { e with data := e.data.set key value })
        (fun e => by cases e <;> simp [Edge.lasting, Notation.lasting_set_transient hkey]) g.edges place
      simp only [lasting, modifyEdge, updateEdge, redraw, hplace, hedges]

/-! ## What lasts is looked up alike -/

theorem node?_lasting (g : Graph) (slot : Nat) : g.lasting.node? slot = (g.node? slot).map Node.lasting := by
  simp only [node?, lasting, Array.getElem?_map]
  cases g.nodes[slot]? with
  | none => rfl
  | some n => cases n <;> rfl

theorem idOf?_lasting (g : Graph) (slot : Nat) : g.lasting.idOf? slot = g.idOf? slot := by
  rw [idOf?, idOf?, node?_lasting, Option.map_map]
  rfl

theorem contact?_lasting (g : Graph) (a b : Nat) : g.lasting.contact? a b = g.contact? a b := by
  unfold contact?
  rw [node?_lasting, node?_lasting]
  cases g.node? a <;> cases g.node? b <;> rfl

/-- What is present of mapped members is what is present of the members, mapped. -/
theorem filterMap_id_map {α β : Type} (view : α → β) (members : Array (Option α)) :
    (members.map (·.map view)).toList.filterMap id = (members.toList.filterMap id).map view := by
  rw [Array.toList_map, List.filterMap_map, List.map_filterMap]
  rfl

theorem nodeList_lasting (g : Graph) : g.lasting.nodeList = g.nodeList.map Node.lasting :=
  filterMap_id_map Node.lasting g.nodes

theorem edgeList_lasting (g : Graph) : g.lasting.edgeList = g.edgeList.map Edge.lasting :=
  filterMap_id_map Edge.lasting g.edges

end Graph

namespace Notation

/-! ## What lasts is written alike -/

theorem get?_lasting_of_not_mem {key : String} (hkey : key ∉ Node.transientKeys) (data : Bag) :
    (lasting data).get? key = data.get? key := by
  have hkept : ¬ isPassedOver [] key = true := by simpa [isPassedOver] using hkey
  rw [get?_lasting, if_neg hkept]

theorem isTraversable_lasting (n : Node) : n.lasting.isTraversable = n.isTraversable := by
  have hget := get?_lasting_of_not_mem (by decide : "traversable" ∉ Node.transientKeys) n.data
  simp only [Node.isTraversable, Node.lasting, Bag.bool?, hget]

namespace FreeForm

theorem nodeLine_lasting (n : Node) : nodeLine n.lasting = nodeLine n := by
  simp only [nodeLine, Node.lasting, lasting_lasting n.data (List.Subset.refl [])]

theorem edgeLine_lasting (g : Graph) (e : Edge) : edgeLine g.lasting e.lasting = edgeLine g e := by
  simp only [edgeLine, Edge.lasting, writeId, Graph.idOf?_lasting, lasting_lasting e.data (List.Subset.refl [])]
  rfl

theorem write_lasting (g : Graph) : write g.lasting = write g := by
  have hnodes : g.lasting.nodeList.map nodeLine = g.nodeList.map nodeLine := by
    rw [Graph.nodeList_lasting, List.map_map]
    exact List.map_congr_left fun n _ => nodeLine_lasting n
  have hedges : g.lasting.edgeList.map (edgeLine g.lasting) = g.edgeList.map (edgeLine g) := by
    rw [Graph.edgeList_lasting, List.map_map]
    exact List.map_congr_left fun e _ => edgeLine_lasting g e
  have hids : g.lasting.idOf? = g.idOf? := funext g.idOf?_lasting
  unfold write
  rw [hnodes, hedges, hids]
  rfl

end FreeForm

namespace Grid

theorem rowLine_lasting (g : Graph) (width y : Nat) : rowLine g.lasting width y = rowLine g width y := by
  have hslot : g.lasting.slot? = g.slot? := rfl
  unfold rowLine
  congr 1
  apply List.map_congr_left
  intro x _
  rw [hslot]
  cases g.slot? (Graph.cellId x y) with
  | none => rfl
  | some slot =>
      simp only [Option.bind_some, Graph.node?_lasting]
      cases g.node? slot with
      | none => rfl
      | some n => simp only [Option.map_some, isTraversable_lasting]

theorem nodeLine?_lasting (n : Node) : nodeLine? n.lasting = nodeLine? n := by
  simp only [nodeLine?, Node.lasting, lasting_lasting n.data (List.nil_subset ["traversable"])]

/-- What a lattice implies of an edge is decided by what lasts of its data. -/
theorem edgeData_lasting (contact : Graph.Contact) (d : Diagonal) (data : Bag) :
    edgeData contact d (lasting data) = edgeData contact d data := by
  have hw := get?_lasting_of_not_mem (by decide : "w" ∉ Node.transientKeys) data
  have hforbidden := get?_lasting_of_not_mem (by decide : "forbidden" ∉ Node.transientKeys) data
  have hweight : weightImplied d (lasting data) contact = weightImplied d data contact := by
    cases contact with
    | orthogonal => simp only [weightImplied, weightOf_congr hw]
    | diagonal => simp only [weightImplied, Bag.number?, hw]
  rw [edgeData_eq, edgeData_eq, hweight]
  simp only [forbiddenImplied, hforbidden]
  exact lasting_lasting data (List.nil_subset _)

theorem edgeLine?_lasting (g : Graph) (d : Diagonal) (e : Edge) :
    edgeLine? g.lasting d e.lasting = edgeLine? g d e := by
  have hcontact : g.lasting.contact? e.lasting.source e.lasting.target = g.contact? e.source e.target :=
    g.contact?_lasting e.source e.target
  have hdata : ∀ contact, edgeData contact d e.lasting.data = edgeData contact d e.data :=
    fun contact => edgeData_lasting contact d e.data
  have hsource : g.lasting.node? e.lasting.source = (g.node? e.source).map Node.lasting := g.node?_lasting e.source
  have htarget : g.lasting.node? e.lasting.target = (g.node? e.target).map Node.lasting := g.node?_lasting e.target
  unfold edgeLine?
  rw [hcontact, hsource, htarget]
  cases g.node? e.source <;> cases g.node? e.target <;> cases g.contact? e.source e.target <;>
    first
    | rfl
    | simp only [Option.map_some, hdata]
      rfl

theorem write_lasting (g : Graph) : write g.lasting = write g := by
  have hgrid : g.lasting.grid = g.grid := rfl
  have hrows : ∀ width, rowLine g.lasting width = rowLine g width := fun width => funext (rowLine_lasting g width)
  have hnodes : g.lasting.nodeList.filterMap nodeLine? = g.nodeList.filterMap nodeLine? := by
    rw [Graph.nodeList_lasting, List.filterMap_map]
    exact List.filterMap_congr fun n _ => nodeLine?_lasting n
  have hedges : ∀ d, g.lasting.edgeList.filterMap (edgeLine? g.lasting d) = g.edgeList.filterMap (edgeLine? g d) := by
    intro d
    rw [Graph.edgeList_lasting, List.filterMap_map]
    exact List.filterMap_congr fun e _ => edgeLine?_lasting g d e
  have hends : ∀ (word : String) (slot : Option Nat),
      (slot.bind g.lasting.node?).toList.map (fun n => joinLine [word, toString n.x, toString n.y] none) =
        (slot.bind g.node?).toList.map fun n => joinLine [word, toString n.x, toString n.y] none := by
    intro word slot
    cases slot with
    | none => rfl
    | some slot =>
        simp only [Option.bind_some, Graph.node?_lasting]
        cases g.node? slot <;> rfl
  unfold write
  rw [hgrid]
  cases g.grid with
  | none => rfl
  | some spec =>
      simp only [hrows, hnodes, hedges, hends]
      rfl

end Grid

/-- **The document of a graph is the document of what lasts of it.** -/
theorem write_lasting (g : Graph) : write g.lasting = write g := by
  have hgrid : g.lasting.isGrid = g.isGrid := rfl
  rw [write, write, hgrid, Grid.write_lasting, FreeForm.write_lasting]

/-- Graphs of which the same lasts have the same document. -/
theorem write_eq_of_lasting_eq {g g' : Graph} (h : g.lasting = g'.lasting) : write g = write g' := by
  rw [← write_lasting g, h, write_lasting]

end Notation

end SearchLab
