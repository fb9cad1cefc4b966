import SearchLab.Proofs.Graph.Index

/-!
# What a graph hands out

A slot is handed out when a node is put there, an edge id when an edge is stored under it or when the id is asked for.
The ledger of a graph lists all that, from the time it was made, over any sequence of operations.

Slots and edge ids are handed out in order. So whatever is in the ledger lies behind what comes next (`Behind`), and a
mutation puts no node in an old slot and no edge in an old place (`Continues`).

* `Mutation.continues` — a mutation hands out new slots and new edge ids only;
* `nodup_ledger` — the ledger of any sequence of operations names nothing twice;
* `addresses_resolve` — addresses are right after any sequence of operations, and none is used again.
-/

namespace SearchLab.Graph

open Relation (ReflTransGen)

/-- What a graph hands out to whoever edits it. -/
inductive Handout where
  | slot (slot : Nat)
  | edge (id : EdgeId)
deriving DecidableEq

/-- What has been handed out for what a graph holds. -/
def held (g : Graph) : List Handout :=
  g.nodeList.map (fun n => .slot n.slot) ++ g.edgeList.map fun e => .edge e.id

namespace Operation

/-- What an operation hands out though it stores nothing under it. -/
def asked : Operation → Graph → List Handout
  | .takeEdgeId, g => [.edge g.takeEdgeId.1]
  | _, _ => []

/-- What an operation hands out: the slots where a node stands that did not stand there before, the ids of the edges
that were not stored before, and what is asked for. -/
def handsOut (op : Operation) (g : Graph) : List Handout :=
  ((op.run g).nodeList.filter fun n => g.idOf? n.slot ≠ some n.id).map (fun n => .slot n.slot) ++
    ((op.run g).edgeList.filter fun e => (g.edge? e.id).isNone).map (fun e => .edge e.id) ++ op.asked g

end Operation

/-- What a sequence of operations hands out. -/
def handouts : List Operation → Graph → List Handout
  | [], _ => []
  | op :: rest, g => op.handsOut g ++ handouts rest (op.run g)

/-- Whatever has been handed out by the end of a sequence of operations, from what was there at first. -/
def ledger (ops : List Operation) (origin : Graph) : List Handout :=
  origin.held ++ handouts ops origin

/-! ## What a mutation hands out -/

/-- Old slots and places hold what they held, or nothing. -/
structure Continues (g g' : Graph) : Prop where
  slots : g.nodes.size ≤ g'.nodes.size
  places : g.edges.size ≤ g'.edges.size
  node : ∀ {s n}, s < g.nodes.size → g'.node? s = some n → g.idOf? s = some n.id
  edge : ∀ {p}, p < g.edges.size → (g'.edgeAt? p).isSome → (g.edgeAt? p).isSome

namespace Continues

theorem refl (g : Graph) : Continues g g where
  slots := Nat.le_refl _
  places := Nat.le_refl _
  node _ hn := by rw [idOf?, hn, Option.map_some]
  edge _ he := he

theorem trans {g g' g'' : Graph} (h : Continues g g') (h' : Continues g' g'') : Continues g g'' where
  slots := Nat.le_trans h.slots h'.slots
  places := Nat.le_trans h.places h'.places
  node hs hn := by
    obtain ⟨n', hn', hid⟩ := Option.map_eq_some_iff.mp (h'.node (Nat.lt_of_lt_of_le hs h.slots) hn)
    rw [← hid]
    exact h.node hs hn'
  edge hp he := h.edge hp (h'.edge (Nat.lt_of_lt_of_le hp h.places) he)

/-- Nothing changes for the slots and the places where nodes and edges are as before. -/
theorem of_same {g g' : Graph} (hnodes : g'.nodes = g.nodes) (hedges : g'.edges = g.edges) : Continues g g' where
  slots := Nat.le_of_eq (congrArg Array.size hnodes.symm)
  places := Nat.le_of_eq (congrArg Array.size hedges.symm)
  node _ hn := by
    rw [node?, hnodes] at hn
    rw [idOf?, node?, hn, Option.map_some]
  edge _ he := by rwa [edgeAt?, hedges] at he

/-- Whatever becomes of a stored edge, it stays in its place or goes. -/
theorem updateEdge (g : Graph) (id : EdgeId) (f : Edge → Option Edge) : Continues g (g.updateEdge id f) where
  slots := Nat.le_of_eq (congrArg Array.size (nodes_updateEdge g id f).symm)
  places := by
    unfold Graph.updateEdge
    split <;> simp
  node _ hn := by
    rw [node?, nodes_updateEdge] at hn
    rw [idOf?, node?, hn, Option.map_some]
  edge _ he := by
    rw [edgeAt?_updateEdge] at he
    split at he
    · exact Option.isSome_of_isSome_bind he
    · exact he

/-- A new edge comes behind all others. -/
theorem withEdge (g : Graph) (source target : Nat) (bidirectional : Bool) (data : Bag) :
    Continues g (g.withEdge source target bidirectional data) where
  slots := Nat.le_refl _
  places := by simp [Graph.withEdge]
  node _ hn := by rw [idOf?, show g.node? _ = some _ from hn, Option.map_some]
  edge hp he := by rwa [edgeAt?_withEdge, if_neg (Nat.ne_of_lt hp)] at he

theorem dropNode (g : Graph) (slot : Nat) : Continues g (g.dropNode slot) := by
  cases hnode : g.node? slot with
  | none =>
      rw [dropNode_of_none hnode]
      exact .refl g
  | some n =>
      have hedges := edgeAt?_dropNode (live_iff.mpr ⟨n, hnode⟩)
      refine ⟨by simp [Graph.dropNode, hnode], by simp [Graph.dropNode, hnode], ?_, ?_⟩
      · intro s m _ hm
        rw [node?_dropNode] at hm
        split at hm
        · exact absurd hm (by simp)
        · rw [idOf?, hm, Option.map_some]
      · intro p _ he
        rw [hedges] at he
        exact Option.isSome_of_isSome_filter _ _ he

end Continues

/-- **A mutation hands out new slots and new edge ids only**: where there was a slot or a place, what was there stays
or goes. -/
theorem Mutation.continues {g g' : Graph} (hmutation : Mutation g g') : Continues g g' := by
  cases hmutation with
  | settings | unindex | reindex | grid | setStart | setGoal => exact .of_same rfl rfl
  | addNode x y data hnew =>
      refine ⟨by simp [Graph.withNode], Nat.le_refl _, ?_, fun _ he => he⟩
      intro s n hs hn
      rw [node?_withNode, if_neg (Nat.ne_of_lt hs)] at hn
      rw [idOf?, hn, Option.map_some]
  | dropNode slot => exact .dropNode g slot
  | changeNode slot hf =>
      refine ⟨by simp [Graph.modifyNode], Nat.le_refl _, ?_, fun _ he => he⟩
      intro s n _ hn
      rw [node?_modifyNode] at hn
      split at hn
      · obtain ⟨old, hold, rfl⟩ := Option.map_eq_some_iff.mp hn
        rw [idOf?, hold, Option.map_some, (hf old).2.1]
      · rw [idOf?, hn, Option.map_some]
  | addEdge bidirectional data _ _ =>
      exact (Continues.withEdge g _ _ bidirectional data).trans (.of_same rfl rfl)
  | linkCells _ _ => exact (Continues.withEdge g _ _ true []).trans (.of_same rfl rfl)
  | takeEdgeId =>
      refine ⟨Nat.le_refl _, by simp [Graph.takeEdgeId], ?_, ?_⟩
      · intro s n _ hn
        rw [idOf?, show g.node? s = some n from hn, Option.map_some]
      · intro p _ he
        rwa [edgeAt?_takeEdgeId] at he
  | changeEdge id hf => exact .updateEdge g id _
  | removeEdge id => exact (Continues.updateEdge g id _).trans (.of_same rfl rfl)
  | reorientEdge id => exact (Continues.updateEdge g id _).trans (.of_same rfl rfl)
  | resetSearch =>
      refine ⟨by simp [Graph.resetSearch], by simp [Graph.resetSearch], ?_, ?_⟩
      · intro s n _ hn
        cases hnode : g.nodes[s]? with
        | none => simp [Graph.resetSearch, node?, hnode] at hn
        | some entry =>
            cases entry with
            | none => simp [Graph.resetSearch, node?, hnode] at hn
            | some old =>
                have hid : n.id = old.id := by
                  simp only [Graph.resetSearch, node?, Array.getElem?_map, hnode, Option.map_some, Option.join_some,
                    Option.some.injEq] at hn
                  rw [← hn]
                simp [idOf?, node?, hnode, hid]
      · intro p _ he
        cases hedge : g.edges[p]? with
        | none => simp [Graph.resetSearch, edgeAt?, hedge] at he
        | some entry => cases entry <;> simp [Graph.resetSearch, edgeAt?, hedge] at he ⊢

theorem continues_of_path {g g' : Graph} (hpath : ReflTransGen Mutation g g') : Continues g g' := by
  induction hpath with
  | refl => exact .refl g
  | tail _ hmutation ih => exact ih.trans hmutation.continues

/-! ## What is handed out once -/

/-- What the next slot and the next edge id have left behind. -/
def Behind (g : Graph) : Handout → Prop
  | .slot s => s < g.nodes.size
  | .edge id => ∃ p < g.edges.size, id = ⟨p + 1⟩

theorem Continues.behind {g g' : Graph} (h : Continues g g') {handout : Handout} (hbehind : g.Behind handout) :
    g'.Behind handout := by
  cases handout with
  | slot s => exact Nat.lt_of_lt_of_le hbehind h.slots
  | edge id =>
      obtain ⟨p, hp, hid⟩ := hbehind
      exact ⟨p, Nat.lt_of_lt_of_le hp h.places, hid⟩

theorem lt_size_of_node? {g : Graph} {s : Nat} {n : Node} (hn : g.node? s = some n) : s < g.nodes.size := by
  by_contra hs
  simp [node?, hs] at hn

theorem lt_size_of_edgeAt? {g : Graph} {p : Nat} {e : Edge} (he : g.edgeAt? p = some e) : p < g.edges.size := by
  by_contra hp
  simp [edgeAt?, hp] at he

theorem not_behind_nextEdgeId (g : Graph) : ¬ g.Behind (.edge g.nextEdgeId) := by
  rintro ⟨p, hp, hid⟩
  simp only [nextEdgeId, EdgeId.mk.injEq] at hid
  omega

section Arena

variable {g : Graph} (h : g.Arena)
include h

theorem Arena.behind_slot {n : Node} (hn : n ∈ g.nodeList) : g.Behind (.slot n.slot) := by
  obtain ⟨s, hs⟩ := mem_nodeList.mp hn
  have hslot := h.slot hs
  exact hslot ▸ lt_size_of_node? hs

theorem Arena.behind_edge {e : Edge} (he : e ∈ g.edgeList) : g.Behind (.edge e.id) := by
  obtain ⟨p, hp⟩ := mem_edgeList.mp he
  exact ⟨p, lt_size_of_edgeAt? hp, h.number hp⟩

/-- A stored edge is found by its id. -/
theorem Arena.edge?_id {e : Edge} (he : e ∈ g.edgeList) : g.edge? e.id = some e := by
  obtain ⟨p, hp⟩ := mem_edgeList.mp he
  rw [edge?_eq, h.place?_id hp, Option.bind_some, hp]

/-- What is found by an id in either direction has the id that points forwards. -/
theorem Arena.id_of_edge? {id : EdgeId} {e : Edge} (he : g.edge? id = some e) : e.id = id.stored := by
  rw [edge?_eq] at he
  obtain ⟨p, hplace, hp⟩ := Option.bind_eq_some_iff.mp he
  rw [h.number hp]
  rcases place?_eq_some_iff.mp hplace with rfl | rfl <;> simp only [EdgeId.stored, EdgeId.mk.injEq] <;> omega

/-- The ids of stored edges point forwards and lie before the next one. -/
theorem Arena.id_bounds {e : Edge} (he : e ∈ g.edgeList) :
    0 < e.id.signed ∧ e.id.signed < g.nextEdgeId.signed := by
  obtain ⟨p, hp, hid⟩ := h.behind_edge he
  simp only [hid, nextEdgeId]
  omega

/-- Some of the nodes and some of the edges of a graph name nothing twice. -/
theorem Arena.nodup_handouts (node : Node → Bool) (edge : Edge → Bool) :
    ((g.nodeList.filter node).map (fun n => Handout.slot n.slot) ++
      (g.edgeList.filter edge).map fun e => Handout.edge e.id).Nodup := by
  have hnodes : ((g.nodeList.map Node.slot).map Handout.slot).Nodup :=
    h.nodup_slots.map fun s s' heq => by simpa using heq
  have hedges : ((g.edgeList.map Edge.id).map Handout.edge).Nodup :=
    h.nodup_edgeIds.map fun id id' heq => by simpa using heq
  rw [List.map_map] at hnodes hedges
  rw [List.nodup_append]
  refine ⟨hnodes.sublist (List.filter_sublist.map _), hedges.sublist (List.filter_sublist.map _), ?_⟩
  intro a ha b hb
  obtain ⟨n, _, rfl⟩ := List.mem_map.mp ha
  obtain ⟨e, _, rfl⟩ := List.mem_map.mp hb
  simp

theorem Arena.nodup_held : g.held.Nodup := by
  have hall := h.nodup_handouts (fun _ => true) fun _ => true
  simpa [held] using hall

theorem Arena.behind_of_held {handout : Handout} (hheld : handout ∈ g.held) : g.Behind handout := by
  rcases List.mem_append.mp hheld with hslot | hedge
  · obtain ⟨n, hn, rfl⟩ := List.mem_map.mp hslot
    exact h.behind_slot hn
  · obtain ⟨e, he, rfl⟩ := List.mem_map.mp hedge
    exact h.behind_edge he

end Arena

/-- An operation leads on by mutations. -/
theorem Operation.mutated_run (op : Operation) {g : Graph} (h : g.Arena) : Mutated g (op.run g) :=
  op.keeps_edit g g ⟨h, .refl⟩

/-- What an operation hands out was not behind before, and is afterwards. -/
theorem Operation.fresh_of_handsOut (op : Operation) {g : Graph} (h : g.Arena) {handout : Handout}
    (hout : handout ∈ op.handsOut g) : ¬ g.Behind handout ∧ (op.run g).Behind handout := by
  have hrun := op.mutated_run h
  have hcontinues := continues_of_path hrun.path
  rcases List.mem_append.mp hout with hstored | hasked
  · rcases List.mem_append.mp hstored with hslot | hedge
    · obtain ⟨n, hn, rfl⟩ := List.mem_map.mp hslot
      obtain ⟨hn, hnew⟩ := List.mem_filter.mp hn
      refine ⟨fun hbehind => ?_, hrun.arena.behind_slot hn⟩
      obtain ⟨s, hs⟩ := mem_nodeList.mp hn
      have hslot := hrun.arena.slot hs
      rw [hslot] at hbehind hnew
      simp [hcontinues.node hbehind hs] at hnew
    · obtain ⟨e, he, rfl⟩ := List.mem_map.mp hedge
      obtain ⟨he, hnew⟩ := List.mem_filter.mp he
      refine ⟨fun hbehind => ?_, hrun.arena.behind_edge he⟩
      obtain ⟨p, hp, hid⟩ := hbehind
      have hstored : (op.run g).edge? e.id = some e := hrun.arena.edge?_id he
      rw [edge?_eq, place?_eq_some_iff.mpr (.inl hid), Option.bind_some] at hstored
      have hold := hcontinues.edge hp (Option.isSome_of_eq_some hstored)
      rw [edge?_eq, place?_eq_some_iff.mpr (.inl hid), Option.bind_some] at hnew
      rw [Option.isNone_iff_eq_none.mp hnew] at hold
      exact absurd hold (by simp)
  · cases op with
    | takeEdgeId =>
        obtain rfl := List.mem_singleton.mp hasked
        have hsize : g.edges.size < g.takeEdgeId.2.edges.size := by simp [Graph.takeEdgeId]
        exact ⟨g.not_behind_nextEdgeId, g.edges.size, hsize, rfl⟩
    | _ => exact absurd hasked (by simp [asked])

/-- No operation hands out the same twice. -/
theorem Operation.nodup_handsOut (op : Operation) {g : Graph} (h : g.Arena) : (op.handsOut g).Nodup := by
  have hstored := (op.mutated_run h).arena.nodup_handouts
    (fun n => decide (g.idOf? n.slot ≠ some n.id)) fun e => (g.edge? e.id).isNone
  cases op with
  | takeEdgeId =>
      refine List.nodup_append.mpr ⟨hstored, by simp [asked], ?_⟩
      -- No edge is stored under an id that is asked for.
      rintro a ha b hb rfl
      obtain rfl := List.mem_singleton.mp hb
      rcases List.mem_append.mp ha with hslot | hedge
      · obtain ⟨n, _, hn⟩ := List.mem_map.mp hslot
        exact absurd hn (by simp)
      · obtain ⟨e, he, hid⟩ := List.mem_map.mp hedge
        have hmem : e ∈ g.takeEdgeId.2.edgeList := (List.mem_filter.mp he).1
        have hold : e ∈ g.edgeList := by simpa [Graph.takeEdgeId, edgeList] using hmem
        have hbehind := h.behind_edge hold
        rw [hid] at hbehind
        exact g.not_behind_nextEdgeId hbehind
  | _ => simpa [handsOut, asked] using hstored

/-- What a sequence of operations hands out was not behind before. -/
theorem not_behind_of_handouts (ops : List Operation) {g : Graph} (h : g.Arena) {handout : Handout}
    (hout : handout ∈ handouts ops g) : ¬ g.Behind handout := by
  induction ops generalizing g with
  | nil => exact absurd hout (by simp [handouts])
  | cons op rest ih =>
      have hrun := op.mutated_run h
      rcases List.mem_append.mp hout with hfirst | hlater
      · exact (op.fresh_of_handsOut h hfirst).1
      · exact fun hbehind => ih hrun.arena hlater ((continues_of_path hrun.path).behind hbehind)

/-- What a sequence of operations hands out is behind in the end. -/
theorem behind_of_handouts (ops : List Operation) {g : Graph} (h : g.Arena) {handout : Handout}
    (hout : handout ∈ handouts ops g) : (runAll ops g).Behind handout := by
  induction ops generalizing g with
  | nil => exact absurd hout (by simp [handouts])
  | cons op rest ih =>
      have hrun := op.mutated_run h
      rcases List.mem_append.mp hout with hfirst | hlater
      · have hrest := mutated_runAll ⟨hrun.arena, .refl⟩ rest
        exact (continues_of_path hrest.path).behind (op.fresh_of_handsOut h hfirst).2
      · exact ih hrun.arena hlater

theorem nodup_handouts_of_arena (ops : List Operation) {g : Graph} (h : g.Arena) : (handouts ops g).Nodup := by
  induction ops generalizing g with
  | nil => exact List.nodup_nil
  | cons op rest ih =>
      have hrun := op.mutated_run h
      refine List.nodup_append.mpr ⟨op.nodup_handsOut h, ih hrun.arena, ?_⟩
      rintro a hfirst b hlater rfl
      exact not_behind_of_handouts rest hrun.arena hlater (op.fresh_of_handsOut h hfirst).2

/-- **The ledger names nothing twice.** -/
theorem nodup_ledger (ops : List Operation) {origin : Graph} (h : origin.Arena) : (ledger ops origin).Nodup := by
  refine List.nodup_append.mpr ⟨h.nodup_held, nodup_handouts_of_arena ops h, ?_⟩
  rintro a hheld b hlater rfl
  exact not_behind_of_handouts ops h hlater (h.behind_of_held hheld)

/-- Whatever is in the ledger lies behind what comes next. -/
theorem behind_of_ledger (ops : List Operation) {origin : Graph} (h : origin.Arena) {handout : Handout}
    (hledger : handout ∈ ledger ops origin) : (runAll ops origin).Behind handout := by
  rcases List.mem_append.mp hledger with hheld | hlater
  · have hmutated := mutated_runAll ⟨h, .refl⟩ ops
    exact (continues_of_path hmutated.path).behind (h.behind_of_held hheld)
  · exact behind_of_handouts ops h hlater

/-! ## What adding gives -/

/-- **Addresses resolve, and none is used again.** Whatever operations have been made of a free-form graph or a grid,
those that failed among them: no two nodes share an id, the look-up of ids leads to the slots of the nodes that have
them and nowhere else, and the node in a slot knows its slot. A stored edge is found under its own id, which points
forwards and lies before the next one, and no two share one; whatever else an id leads to has the id that points
forwards. Edges, start and goal lead to nodes that are there. The ledger names no slot and no edge id twice, and what
the next addition of a node or an edge gives, or the next request for an edge id, is not in it. -/
theorem addresses_resolve {origin : Graph} (horigin : Fresh origin) (ops : List Operation) :
    ((runAll ops origin).nodeList.map Node.id).Nodup ∧
    (∀ id slot, (runAll ops origin).slot? id = some slot ↔
      ∃ n, (runAll ops origin).node? slot = some n ∧ n.id = id) ∧
    (∀ slot n, (runAll ops origin).node? slot = some n → n.slot = slot) ∧
    (∀ e ∈ (runAll ops origin).edgeList, (runAll ops origin).edge? e.id = some e ∧
      0 < e.id.signed ∧ e.id.signed < (runAll ops origin).nextEdgeId.signed) ∧
    (∀ id e, (runAll ops origin).edge? id = some e → e.id = id.stored) ∧
    ((runAll ops origin).edgeList.map Edge.id).Nodup ∧
    (∀ e ∈ (runAll ops origin).edgeList,
      (runAll ops origin).Live e.source ∧ (runAll ops origin).Live e.target) ∧
    (∀ slot, (runAll ops origin).start = some slot ∨ (runAll ops origin).goal = some slot →
      (runAll ops origin).Live slot) ∧
    (ledger ops origin).Nodup ∧
    (∀ id data slot g, addNode id data (runAll ops origin) = .ok slot g → .slot slot ∉ ledger ops origin) ∧
    (∀ source target bidirectional data id g,
      addEdge source target bidirectional data (runAll ops origin) = .ok id g → .edge id ∉ ledger ops origin) ∧
    .edge (runAll ops origin).takeEdgeId.1 ∉ ledger ops origin := by
  obtain ⟨harena, _⟩ := horigin.arena_indexed ops
  obtain ⟨hfirst, _⟩ := horigin.arena_indexed []
  have hbehind : ∀ {handout}, handout ∈ ledger ops origin → (runAll ops origin).Behind handout :=
    behind_of_ledger ops hfirst
  refine ⟨harena.nodup_ids, harena.lookup, fun _ _ => harena.slot,
    fun e he => ⟨harena.edge?_id he, harena.id_bounds he⟩, fun _ _ => harena.id_of_edge?, harena.nodup_edgeIds, ?_, ?_,
    nodup_ledger ops hfirst, ?_, ?_, fun hledger => not_behind_nextEdgeId _ (hbehind hledger)⟩
  · intro e he
    obtain ⟨p, hp⟩ := mem_edgeList.mp he
    exact harena.ends hp
  · rintro slot (hstart | hgoal)
    · exact harena.start hstart
    · exact harena.goal hgoal
  · intro id data slot g hadd hledger
    have hslot : slot < (runAll ops origin).nodes.size := hbehind hledger
    obtain ⟨-, -, rfl, -⟩ := addNode_ok_iff.mp hadd
    exact Nat.lt_irrefl _ hslot
  · intro source target bidirectional data id g hadd hledger
    obtain ⟨-, -, rfl, -⟩ := addEdge_ok_iff.mp hadd
    exact not_behind_nextEdgeId _ (hbehind hledger)

/-- Two nodes and an edge, one node removed with the edge, another put in its stead and refused a second time, an edge
id asked for: each slot and each edge id is in the ledger once. -/
theorem addresses_resolve_of_free_form :
    (ledger [.addNode "a" [], .addNode "b" [], .addEdge 0 1 false [], .removeNode 1, .addNode "b" [], .addNode "b" [],
        .takeEdgeId] Graph.empty).Nodup ∧
      Handout.edge (runAll [.addNode "a" [], .addNode "b" [], .addEdge 0 1 false [], .removeNode 1, .addNode "b" [],
        .addNode "b" [], .takeEdgeId] Graph.empty).takeEdgeId.1 ∉
      ledger [.addNode "a" [], .addNode "b" [], .addEdge 0 1 false [], .removeNode 1, .addNode "b" [],
        .addNode "b" [], .takeEdgeId] Graph.empty :=
  have hresolve := addresses_resolve .freeForm [.addNode "a" [], .addNode "b" [], .addEdge 0 1 false [],
    .removeNode 1, .addNode "b" [], .addNode "b" [], .takeEdgeId]
  ⟨hresolve.2.2.2.2.2.2.2.2.1, hresolve.2.2.2.2.2.2.2.2.2.2.2⟩

end SearchLab.Graph
