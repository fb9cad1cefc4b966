import SearchLab.Proofs.Graph.Operation

/-!
# The index of a graph

The index is either kept up while edges are added or thrown away and built anew when it is next read. `Indexed` says
that this makes no difference: an index that is there lists, for every slot, what the stored edges make of an index
built anew, in the same order. From it the edges at a node are those of the stored edges that end there, each seen in
the direction in question.

* `mem_leaving`, `mem_arriving` — the edges that leave a node and those that arrive there;
* `index_agrees` — a graph that any operations have made.
-/

namespace SearchLab

namespace Adjacency

/-- What a stored edge is listed as under a slot. -/
def listed (slot : Nat) (e : Edge) : List EdgeId :=
  (if e.source = slot then [e.id] else []) ++ if e.target = slot then [e.id.reversed] else []

theorem entries_add_listed (index : Adjacency) (e : Edge) (slot : Nat) :
    (index.add e).entries slot = index.entries slot ++ listed slot e := by
  rw [entries_add, listed, List.append_assoc]

/-- The list of a slot, edge by edge. -/
theorem entries_ofEdges (edges : List Edge) (slot : Nat) :
    (ofEdges edges).entries slot = edges.flatMap (listed slot) := by
  have hgeneral : ∀ index : Adjacency,
      (edges.foldl add index).entries slot = index.entries slot ++ edges.flatMap (listed slot) := by
    induction edges with
    | nil => intro index; simp
    | cons e rest ih =>
        intro index
        rw [List.foldl_cons, ih, entries_add_listed, List.flatMap_cons, List.append_assoc]
  rw [ofEdges, hgeneral, entries_empty, List.nil_append]

end Adjacency

namespace Graph

open Adjacency (listed entries_ofEdges entries_add_listed)
open Relation (ReflTransGen)

/-- An index that is there lists what the stored edges make of one built anew. -/
def Indexed (g : Graph) : Prop :=
  ∀ index, g.index = some index → ∀ slot, index.entries slot = (Adjacency.ofEdges g.edgeList).entries slot

namespace Indexed

/-- A graph without an index has no wrong one. -/
theorem of_none {g : Graph} (h : g.index = none) : g.Indexed := by
  intro index hindex
  rw [h] at hindex
  exact absurd hindex (by simp)

/-- The index does not depend on what edges carry beside their numbers and their ends. -/
theorem of_listed {g g' : Graph} (h : g.Indexed) (hindex : g'.index = g.index)
    (hedges : ∀ slot, g'.edgeList.flatMap (listed slot) = g.edgeList.flatMap (listed slot)) : g'.Indexed := by
  intro index hsome slot
  rw [hindex] at hsome
  rw [h index hsome slot, entries_ofEdges, entries_ofEdges, hedges]

/-- Whether the index is there or not, the look-up finds what the stored edges make of it. -/
theorem incident_eq {g : Graph} (h : g.Indexed) (slot : Nat) :
    g.incident slot = g.edgeList.flatMap (listed slot) := by
  rw [incident, currentIndex]
  split
  · rename_i index hindex
    rw [h index hindex slot, entries_ofEdges]
  · exact entries_ofEdges g.edgeList slot

end Indexed

/-- What the edges of a graph are listed as, place by place. -/
theorem flatMap_edgeList {α : Type} (g : Graph) (f : Edge → List α) :
    g.edgeList.flatMap f = (List.range g.edges.size).flatMap fun p => (g.edgeAt? p).elim [] f := by
  rw [edgeList_eq]
  induction List.range g.edges.size with
  | nil => rfl
  | cons p rest ih =>
      cases hp : g.edgeAt? p with
      | none => simp [hp, ih]
      | some e => simp [hp, ih]

/-- **A mutation keeps the index right**: it lists a new edge where it belongs, or throws the index away. -/
theorem Mutation.indexed {g g' : Graph} (hmutation : Mutation g g') (h : g.Indexed) : g'.Indexed := by
  cases hmutation with
  | settings | grid | addNode | setStart | setGoal => exact h
  | changeNode => exact h
  | unindex => exact .of_none rfl
  | reindex =>
      intro index hindex slot
      cases hindex
      exact (h.incident_eq slot).trans (entries_ofEdges g.edgeList slot).symm
  | dropNode slot =>
      cases hnode : g.node? slot with
      | none => rwa [dropNode_of_none hnode]
      | some n => exact .of_none (by simp [Graph.dropNode, hnode])
  | addEdge | removeEdge | reorientEdge => exact .of_none rfl
  | @linkCells source target hsource htarget =>
      intro index hindex slot
      obtain ⟨old, hold, rfl⟩ := Option.map_eq_some_iff.mp hindex
      have hpush : (g.linkCells source target).2.edgeList =
          g.edgeList ++ [{ id := g.nextEdgeId, source, target, bidirectional := true }] := by
        simp [Graph.linkCells, edgeList]
      rw [hpush, entries_add_listed, h old hold slot, entries_ofEdges, entries_ofEdges, List.flatMap_append]
      simp
  | takeEdgeId =>
      refine h.of_listed rfl fun slot => ?_
      have hsame : g.takeEdgeId.2.edgeList = g.edgeList := by simp [Graph.takeEdgeId, edgeList]
      rw [hsame]
  | @changeEdge id f hf =>
      refine h.of_listed (index_updateEdge g id _) fun slot => ?_
      have hsize : (g.updateEdge id fun e => some (f e)).edges.size = g.edges.size := by
        unfold updateEdge
        split <;> simp
      rw [flatMap_edgeList, flatMap_edgeList, hsize]
      congr 1
      funext p
      rw [edgeAt?_updateEdge]
      split
      · cases g.edgeAt? p with
        | none => rfl
        | some e =>
            obtain ⟨hid, hsource, htarget⟩ := hf e
            simp [listed, hid, hsource, htarget]
      · rfl
  | resetSearch =>
      refine h.of_listed rfl fun slot => ?_
      have hlist : g.resetSearch.edgeList =
          g.edgeList.map fun e => { e with data := e.data.set "highlighted" (.bool false) } := by
        simp [Graph.resetSearch, edgeList, List.filterMap_map, List.map_filterMap]
      rw [hlist, List.flatMap_map]
      rfl

theorem indexed_of_path {origin g : Graph} (h : origin.Indexed) (hpath : ReflTransGen Mutation origin g) :
    g.Indexed := by
  induction hpath with
  | refl => exact h
  | tail _ hmutation ih => exact hmutation.indexed ih

/-! ## The edges at a node -/

/-- A stored edge as it is seen when it leaves a node. -/
def viewsFrom (slot : Nat) (e : Edge) : List EdgeView :=
  (if e.source = slot then [⟨e, false⟩] else []) ++ if e.target = slot then [⟨e, true⟩] else []

/-- A stored edge as it is seen when it arrives at a node. -/
def viewsTo (slot : Nat) (e : Edge) : List EdgeView :=
  (if e.source = slot then [⟨e, true⟩] else []) ++ if e.target = slot then [⟨e, false⟩] else []

section Views

variable {g : Graph} (hg : g.Arena)
include hg

/-- A stored edge is found by its number in both directions. -/
theorem Arena.view? {e : Edge} (he : e ∈ g.edgeList) :
    g.view? e.id = some ⟨e, false⟩ ∧ g.view? e.id.reversed = some ⟨e, true⟩ := by
  obtain ⟨p, hp⟩ := mem_edgeList.mp he
  have hid := hg.number hp
  have hplace := hg.place?_id hp
  have hforward : g.edge? e.id = some e := by rw [edge?_eq, hplace, Option.bind_some, hp]
  have hbackward : g.edge? e.id.reversed = some e := by
    rw [edge?_eq, place?_reversed, hplace, Option.bind_some, hp]
  have hpositive : e.id.isReverse = false ∧ e.id.reversed.isReverse = true := by
    simp only [EdgeId.isReverse, EdgeId.reversed, hid, decide_eq_false_iff_not, decide_eq_true_eq]
    omega
  rw [Graph.view?, Graph.view?, hforward, hbackward, hpositive.1, hpositive.2]
  exact ⟨rfl, rfl⟩

/-- The ids that an edge is listed as lead to the ways in which it is seen. -/
theorem filterMap_listed {e : Edge} (he : e ∈ g.edgeList) (slot : Nat) :
    (listed slot e).filterMap g.view? = viewsFrom slot e ∧
      (listed slot e).filterMap (fun id => g.view? id.reversed) = viewsTo slot e := by
  obtain ⟨hforward, hbackward⟩ := hg.view? he
  by_cases hsource : e.source = slot <;> by_cases htarget : e.target = slot <;>
    simp [listed, viewsFrom, viewsTo, hsource, htarget, hforward, hbackward]

theorem leaving_eq (h : g.Indexed) (slot : Nat) (all : Bool) :
    g.leaving slot all = g.passable all (g.edgeList.flatMap (viewsFrom slot)) := by
  have hviews : (g.edgeList.flatMap (listed slot)).filterMap g.view? = g.edgeList.flatMap (viewsFrom slot) := by
    rw [List.filterMap_flatMap]
    exact List.flatMap_congr fun e he => (filterMap_listed hg he slot).1
  rw [leaving, h.incident_eq, hviews]

theorem arriving_eq (h : g.Indexed) (slot : Nat) (all : Bool) :
    g.arriving slot all = g.passable all (g.edgeList.flatMap (viewsTo slot)) := by
  have hviews : (g.edgeList.flatMap (listed slot)).filterMap (fun id => g.view? id.reversed) =
      g.edgeList.flatMap (viewsTo slot) := by
    rw [List.filterMap_flatMap]
    exact List.flatMap_congr fun e he => (filterMap_listed hg he slot).2
  rw [arriving, h.incident_eq, hviews]

/-- All edges that leave a node, edge by edge. -/
theorem leaving_true (h : g.Indexed) (slot : Nat) : g.leaving slot true = g.edgeList.flatMap (viewsFrom slot) := by
  rw [leaving_eq hg h, passable]
  exact List.filter_eq_self.mpr fun v _ => rfl

omit hg in
theorem mem_viewsFrom {slot : Nat} {e : Edge} {v : EdgeView} :
    v ∈ viewsFrom slot e ↔ v.edge = e ∧ v.source = slot := by
  obtain ⟨edge, reversed⟩ := v
  cases reversed <;> by_cases hsource : e.source = slot <;> by_cases htarget : e.target = slot <;>
    simp only [viewsFrom, hsource, htarget, EdgeView.source] <;> grind

omit hg in
theorem mem_viewsTo {slot : Nat} {e : Edge} {v : EdgeView} :
    v ∈ viewsTo slot e ↔ v.edge = e ∧ v.target = slot := by
  obtain ⟨edge, reversed⟩ := v
  cases reversed <;> by_cases hsource : e.source = slot <;> by_cases htarget : e.target = slot <;>
    simp only [viewsTo, hsource, htarget, EdgeView.target] <;> grind

/-- The edges that leave a node are the stored edges seen from it, those among them that may be walked. -/
theorem mem_leaving (h : g.Indexed) {slot : Nat} {all : Bool} {v : EdgeView} :
    v ∈ g.leaving slot all ↔
      v.edge ∈ g.edgeList ∧ v.source = slot ∧ (all = true ∨ g.isTraversable v = true) := by
  rw [leaving_eq hg h, passable, List.mem_filter, List.mem_flatMap]
  simp only [mem_viewsFrom, Bool.or_eq_true]
  constructor
  · rintro ⟨⟨e, he, rfl, hsource⟩, hpass⟩
    exact ⟨he, hsource, hpass⟩
  · rintro ⟨he, hsource, hpass⟩
    exact ⟨⟨v.edge, he, rfl, hsource⟩, hpass⟩

/-- The edges that arrive at a node are the stored edges seen towards it, those among them that may be walked. -/
theorem mem_arriving (h : g.Indexed) {slot : Nat} {all : Bool} {v : EdgeView} :
    v ∈ g.arriving slot all ↔
      v.edge ∈ g.edgeList ∧ v.target = slot ∧ (all = true ∨ g.isTraversable v = true) := by
  rw [arriving_eq hg h, passable, List.mem_filter, List.mem_flatMap]
  simp only [mem_viewsTo, Bool.or_eq_true]
  constructor
  · rintro ⟨⟨e, he, rfl, htarget⟩, hpass⟩
    exact ⟨he, htarget, hpass⟩
  · rintro ⟨he, htarget, hpass⟩
    exact ⟨⟨v.edge, he, rfl, htarget⟩, hpass⟩

/-- No two stored edges have the same number. -/
theorem Arena.nodup_edgeIds : (g.edgeList.map Edge.id).Nodup := by
  have hids : g.edgeList.map Edge.id = (List.range g.edges.size).filterMap fun p => (g.edgeAt? p).map Edge.id := by
    rw [edgeList_eq, List.map_filterMap]
  rw [hids]
  refine List.Nodup.filterMap ?_ List.nodup_range
  intro p p' id hp hp'
  obtain ⟨e, he, rfl⟩ := Option.map_eq_some_iff.mp hp
  obtain ⟨e', he', hid⟩ := Option.map_eq_some_iff.mp hp'
  rw [hg.number he, hg.number he', EdgeId.mk.injEq] at hid
  omega

/-- The number of a stored edge is that of no edge seen backwards. -/
theorem Arena.reversed_ne {e e' : Edge} (he : e ∈ g.edgeList) (he' : e' ∈ g.edgeList) : e.id.reversed ≠ e'.id := by
  obtain ⟨p, hp⟩ := mem_edgeList.mp he
  obtain ⟨p', hp'⟩ := mem_edgeList.mp he'
  simp only [hg.number hp, hg.number hp', EdgeId.reversed, ne_eq, EdgeId.mk.injEq]
  omega

omit hg in
/-- Only one edge of a list has its number. -/
theorem flatMap_of_nodup {α : Type} {edges : List Edge} (hnodup : (edges.map Edge.id).Nodup) {e : Edge}
    (he : e ∈ edges) {f : Edge → List α} (hf : ∀ e' ∈ edges, e'.id ≠ e.id → f e' = []) : edges.flatMap f = f e := by
  induction edges with
  | nil => exact absurd he List.not_mem_nil
  | cons first rest ih =>
      obtain ⟨hfirst, hrest⟩ := List.nodup_cons.mp hnodup
      rw [List.flatMap_cons]
      rcases List.mem_cons.mp he with rfl | he
      · have hnone : rest.flatMap f = [] := by
          rw [List.flatMap_eq_nil_iff]
          intro e' he'
          refine hf e' (List.mem_cons_of_mem e he') fun hid => hfirst ?_
          exact hid ▸ List.mem_map_of_mem he'
        rw [hnone, List.append_nil]
      · have hid : first.id ≠ e.id := fun hid => hfirst (hid ▸ List.mem_map_of_mem he)
        rw [hf first List.mem_cons_self hid, List.nil_append]
        exact ih hrest he fun e' he' => hf e' (List.mem_cons_of_mem first he')

/-- A stored edge is seen once leaving its source, and once backwards leaving its target. -/
theorem filter_leaving (h : g.Indexed) {e : Edge} (he : e ∈ g.edgeList) (slot : Nat) :
    (g.leaving slot true).filter (fun v => v.id = e.id) = (if e.source = slot then [⟨e, false⟩] else []) ∧
      (g.leaving slot true).filter (fun v => v.id = e.id.reversed) =
        if e.target = slot then [⟨e, true⟩] else [] := by
  have hself : e.id.reversed ≠ e.id := hg.reversed_ne he he
  rw [leaving_true hg h, List.filter_flatMap, List.filter_flatMap]
  constructor
  · rw [flatMap_of_nodup hg.nodup_edgeIds he]
    · by_cases hsource : e.source = slot <;> by_cases htarget : e.target = slot <;>
        simp [viewsFrom, hsource, htarget, EdgeView.id, hself]
    · intro e' he' hid
      have hreversed := hg.reversed_ne he' he
      by_cases hsource : e'.source = slot <;> by_cases htarget : e'.target = slot <;>
        simp [viewsFrom, hsource, htarget, EdgeView.id, hid, hreversed]
  · rw [flatMap_of_nodup hg.nodup_edgeIds he]
    · by_cases hsource : e.source = slot <;> by_cases htarget : e.target = slot <;>
        simp [viewsFrom, hsource, htarget, EdgeView.id, hself.symm]
    · intro e' he' hid
      have hforward := (hg.reversed_ne he he').symm
      have hbackward : e'.id.reversed ≠ e.id.reversed := by
        intro heq
        have hback := congrArg EdgeId.reversed heq
        rw [EdgeId.reversed_reversed, EdgeId.reversed_reversed] at hback
        exact hid hback
      by_cases hsource : e'.source = slot <;> by_cases htarget : e'.target = slot <;>
        simp [viewsFrom, hsource, htarget, EdgeView.id, hforward, hbackward]

end Views

/-- A graph as it is made, before anything is done with it. -/
inductive Fresh : Graph → Prop
  | freeForm : Fresh Graph.empty
  | grid {width height : Nat} {diagonal : Diagonal} {g : Graph} (h : ofGrid width height diagonal = .ok g) : Fresh g

/-- Operations keep the addresses and the index of a graph right. -/
theorem Fresh.arena_indexed {origin : Graph} (h : Fresh origin) (ops : List Operation) :
    (runAll ops origin).Arena ∧ (runAll ops origin).Indexed := by
  have hindexed : ∀ grid, Indexed { grid } := by
    intro grid index hindex slot
    cases hindex
    rfl
  cases h with
  | freeForm =>
      have hmutated := mutated_runAll ⟨Arena.empty none, .refl⟩ ops
      exact ⟨hmutated.arena, indexed_of_path (hindexed none) hmutated.path⟩
  | grid hgrid =>
      have hmutated := mutated_runAll (mutated_ofGrid hgrid) ops
      exact ⟨hmutated.arena, indexed_of_path (hindexed _) hmutated.path⟩

/-- **The index agrees with the stored edges.** Whatever operations and look-ups have been made of a free-form graph
or a grid, in any order: an index that is there lists for every slot what the stored edges make of one built anew.
So the edges at a node are the same, and in the same order, when the index is thrown away; every stored edge is seen
once leaving its source and once, backwards, leaving its target, and nowhere else; and an edge is seen leaving the
node where it starts exactly when it is seen arriving at the node where it ends. -/
theorem index_agrees {origin : Graph} (horigin : Fresh origin) (ops : List Operation) :
    (∀ index, (runAll ops origin).index = some index → ∀ slot,
      index.entries slot = (Adjacency.ofEdges (runAll ops origin).edgeList).entries slot) ∧
    (∀ slot all, (runAll ops origin).leaving slot all = (runAll ops origin).unindex.leaving slot all ∧
      (runAll ops origin).arriving slot all = (runAll ops origin).unindex.arriving slot all) ∧
    (∀ e ∈ (runAll ops origin).edgeList, ∀ slot,
      ((runAll ops origin).leaving slot true).filter (fun v => v.id = e.id) =
          (if e.source = slot then [⟨e, false⟩] else []) ∧
        ((runAll ops origin).leaving slot true).filter (fun v => v.id = e.id.reversed) =
          if e.target = slot then [⟨e, true⟩] else []) ∧
    ∀ (v : EdgeView) (all : Bool),
      v ∈ (runAll ops origin).leaving v.source all ↔ v ∈ (runAll ops origin).arriving v.target all := by
  obtain ⟨harena, hindexed⟩ := horigin.arena_indexed ops
  generalize runAll ops origin = g at harena hindexed
  have harena' : g.unindex.Arena := (Mutation.unindex g).arena harena
  have hindexed' : g.unindex.Indexed := .of_none rfl
  refine ⟨hindexed, fun slot all => ⟨?_, ?_⟩, fun e he slot => filter_leaving harena hindexed he slot, ?_⟩
  · rw [leaving_eq harena hindexed, leaving_eq harena' hindexed']
    rfl
  · rw [arriving_eq harena hindexed, arriving_eq harena' hindexed']
    rfl
  · intro v all
    rw [mem_leaving harena hindexed, mem_arriving harena hindexed]
    simp

/-- Two nodes, an edge that is added, looked at and turned around, and a loop: what leaves the second node and what
arrives there does not depend on the index. -/
theorem index_agrees_of_free_form :
    (runAll [.addNode "a" [], .addNode "b" [], .addEdge 0 1 false [], .reindex, .addEdge 1 1 true [],
        .reorientEdge ⟨1⟩, .reindex] Graph.empty).leaving 1 true =
      (runAll [.addNode "a" [], .addNode "b" [], .addEdge 0 1 false [], .reindex, .addEdge 1 1 true [],
        .reorientEdge ⟨1⟩, .reindex] Graph.empty).unindex.leaving 1 true ∧
    (runAll [.addNode "a" [], .addNode "b" [], .addEdge 0 1 false [], .reindex, .addEdge 1 1 true [],
        .reorientEdge ⟨1⟩, .reindex] Graph.empty).arriving 1 true =
      (runAll [.addNode "a" [], .addNode "b" [], .addEdge 0 1 false [], .reindex, .addEdge 1 1 true [],
        .reorientEdge ⟨1⟩, .reindex] Graph.empty).unindex.arriving 1 true :=
  (index_agrees .freeForm _).2.1 1 true

end Graph

end SearchLab
