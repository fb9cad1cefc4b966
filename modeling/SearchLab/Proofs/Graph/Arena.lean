import Mathlib.Data.List.Nodup
import SearchLab.Graph.Lattice

/-!
# The arena of a graph

Nodes and edges live in arrays and are never moved: a node is addressed by its slot and an edge by its number. `Arena`
says that the addresses are right: a node knows its slot, an id leads to the node that has it and to nothing else, an
edge knows its number, and edges, the start and the goal lead to nodes that exist.

A `Mutation` is one of the ways in which a graph is ever changed. Whatever an operation of the library does to a graph
is a run of mutations, so what every mutation keeps, every operation keeps.

* `Mutation.arena` — a mutation keeps the addresses right.
-/

namespace SearchLab.Graph

/-- The edge at a place among the stored ones. -/
def edgeAt? (g : Graph) (place : Nat) : Option Edge := (g.edges[place]?).join

/-- A slot holds a node. -/
def Live (g : Graph) (slot : Nat) : Prop := (g.node? slot).isSome = true

/-- The addresses of a graph are right. -/
structure Arena (g : Graph) : Prop where
  slot : ∀ {s n}, g.node? s = some n → n.slot = s
  lookup : ∀ id s, g.slot? id = some s ↔ ∃ n, g.node? s = some n ∧ n.id = id
  number : ∀ {p e}, g.edgeAt? p = some e → e.id = ⟨p + 1⟩
  ends : ∀ {p e}, g.edgeAt? p = some e → g.Live e.source ∧ g.Live e.target
  start : ∀ {s}, g.start = some s → g.Live s
  goal : ∀ {s}, g.goal = some s → g.Live s

/-! ## Reading -/

theorem live_iff {g : Graph} {slot : Nat} : g.Live slot ↔ ∃ n, g.node? slot = some n :=
  Option.isSome_iff_exists

theorem mem_nodeList {g : Graph} {n : Node} : n ∈ g.nodeList ↔ ∃ s, g.node? s = some n := by
  simp only [nodeList, List.mem_filterMap, id_eq, exists_eq_right, Array.mem_toList_iff, node?,
    Option.join_eq_some_iff]
  exact Array.mem_iff_getElem?

theorem mem_edgeList {g : Graph} {e : Edge} : e ∈ g.edgeList ↔ ∃ p, g.edgeAt? p = some e := by
  simp only [edgeList, List.mem_filterMap, id_eq, exists_eq_right, Array.mem_toList_iff, edgeAt?,
    Option.join_eq_some_iff]
  exact Array.mem_iff_getElem?

/-- The nodes are those of the slots in order. -/
theorem nodeList_eq (g : Graph) : g.nodeList = (List.range g.nodes.size).filterMap g.node? := by
  have hslots : g.nodes.toList = (List.range g.nodes.size).map g.node? := by
    apply List.ext_getElem
    · simp
    · intro i hleft hright
      have hsize : i < g.nodes.size := by simpa using hleft
      simp [node?, Array.getElem?_eq_getElem hsize]
  rw [nodeList, hslots, List.filterMap_map]
  rfl

/-- The stored edges are those of the places in order. -/
theorem edgeList_eq (g : Graph) : g.edgeList = (List.range g.edges.size).filterMap g.edgeAt? := by
  have hplaces : g.edges.toList = (List.range g.edges.size).map g.edgeAt? := by
    apply List.ext_getElem
    · simp
    · intro i hleft hright
      have hsize : i < g.edges.size := by simpa using hleft
      simp [edgeAt?, Array.getElem?_eq_getElem hsize]
  rw [edgeList, hplaces, List.filterMap_map]
  rfl

/-- The place of an id that belongs to a place, in either direction. -/
theorem place?_eq_some_iff {id : EdgeId} {place : Nat} :
    place? id = some place ↔ id = ⟨place + 1⟩ ∨ id = ⟨-(place + 1)⟩ := by
  obtain ⟨n⟩ := id
  unfold place?
  split
  · rename_i hzero
    simp only [EdgeId.mk.injEq, reduceCtorEq, false_iff]
    simp only [Int.natAbs_eq_zero] at hzero
    omega
  · rename_i m hm
    simp only [Option.some.injEq, EdgeId.mk.injEq]
    simp only at hm
    omega

theorem place?_reversed (id : EdgeId) : place? id.reversed = place? id := by
  simp [place?, EdgeId.reversed]

theorem edge?_eq (g : Graph) (id : EdgeId) : g.edge? id = (place? id).bind g.edgeAt? := rfl

/-! ## What single changes do -/

/-- A graph with one node more, in the next slot. -/
def withNode (g : Graph) (id : String) (x y : Nat) (data : Bag) : Graph :=
  { g with
    slots := g.slots.insert id g.nodes.size
    nodes := g.nodes.push (some { slot := g.nodes.size, id, x, y, data })
    needsRedraw := true }

/-- A graph with one edge more, behind all others; the index is left as it is. -/
def withEdge (g : Graph) (source target : Nat) (bidirectional : Bool) (data : Bag) : Graph :=
  { g with edges := g.edges.push (some { id := g.nextEdgeId, source, target, bidirectional, data }) }

theorem node?_withNode (g : Graph) (id : String) (x y : Nat) (data : Bag) (s : Nat) :
    (g.withNode id x y data).node? s =
      if s = g.nodes.size then some { slot := g.nodes.size, id, x, y, data } else g.node? s := by
  by_cases h : s = g.nodes.size <;> simp [withNode, node?, Array.getElem?_push, h]

theorem node?_size (g : Graph) : g.node? g.nodes.size = none := by
  simp [node?]

theorem slot?_withNode (g : Graph) (id : String) (x y : Nat) (data : Bag) (other : String) :
    (g.withNode id x y data).slot? other = if id = other then some g.nodes.size else g.slot? other := by
  simp [withNode, slot?, Std.HashMap.getElem?_insert]

theorem node?_modifyNode (g : Graph) (slot : Nat) (f : Node → Node) (s : Nat) :
    (g.modifyNode slot f).node? s = if slot = s then (g.node? s).map f else g.node? s := by
  by_cases h : slot = s
  · subst h
    cases hnode : g.nodes[slot]? with
    | none => simp [modifyNode, node?, Array.getElem?_modify, hnode]
    | some entry => cases entry <;> simp [modifyNode, node?, Array.getElem?_modify, hnode]
  · simp [modifyNode, node?, Array.getElem?_modify, h]

/-- Without a node, nothing is dropped. -/
theorem dropNode_of_none {g : Graph} {slot : Nat} (h : g.node? slot = none) : g.dropNode slot = g := by
  simp [dropNode, h]

theorem node?_dropNode (g : Graph) (slot s : Nat) :
    (g.dropNode slot).node? s = if slot = s then none else g.node? s := by
  unfold dropNode
  cases hnode : g.node? slot with
  | none =>
      by_cases h : slot = s
      · simp [← h, hnode]
      · simp [h]
  | some n =>
      by_cases h : slot = s
      · subst h
        by_cases hsize : slot < g.nodes.size <;> simp [node?, hsize]
      · simp [node?, h]

theorem live_dropNode {g : Graph} {slot s : Nat} (h : g.Live s) (hne : s ≠ slot) : (g.dropNode slot).Live s := by
  rw [Live, node?_dropNode, if_neg (Ne.symm hne)]
  exact h

theorem slot?_dropNode {g : Graph} {slot : Nat} {n : Node} (hn : g.node? slot = some n) (id : String) :
    (g.dropNode slot).slot? id = if n.id = id then none else g.slot? id := by
  simp [dropNode, hn, slot?, Std.HashMap.getElem?_erase]

theorem edgeAt?_withEdge (g : Graph) (source target : Nat) (bidirectional : Bool) (data : Bag) (p : Nat) :
    (g.withEdge source target bidirectional data).edgeAt? p =
      if p = g.edges.size then some { id := g.nextEdgeId, source, target, bidirectional, data } else g.edgeAt? p := by
  by_cases h : p = g.edges.size <;> simp [withEdge, edgeAt?, Array.getElem?_push, h]

theorem edgeAt?_takeEdgeId (g : Graph) (p : Nat) : g.takeEdgeId.2.edgeAt? p = g.edgeAt? p := by
  by_cases h : p = g.edges.size
  · simp [takeEdgeId, edgeAt?, h]
  · simp [takeEdgeId, edgeAt?, Array.getElem?_push, h]

theorem edgeAt?_updateEdge (g : Graph) (id : EdgeId) (f : Edge → Option Edge) (p : Nat) :
    (g.updateEdge id f).edgeAt? p = if place? id = some p then (g.edgeAt? p).bind f else g.edgeAt? p := by
  unfold updateEdge
  cases hplace : place? id with
  | none => simp
  | some place =>
      by_cases h : place = p
      · subst h
        cases hedge : g.edges[place]? with
        | none => simp [edgeAt?, Array.getElem?_modify, hedge]
        | some entry => cases entry <;> simp [edgeAt?, Array.getElem?_modify, hedge]
      · simp [edgeAt?, Array.getElem?_modify, h]

theorem edgeAt?_changeEdge (g : Graph) (id : EdgeId) (f : Edge → Edge) (p : Nat) :
    (g.updateEdge id fun e => some (f e)).edgeAt? p =
      if place? id = some p then (g.edgeAt? p).map f else g.edgeAt? p := by
  rw [edgeAt?_updateEdge]
  cases g.edgeAt? p <;> rfl

section UpdateEdge

variable (g : Graph) (id : EdgeId) (f : Edge → Option Edge)

@[simp] theorem nodes_updateEdge : (g.updateEdge id f).nodes = g.nodes := by
  unfold updateEdge
  split <;> rfl

@[simp] theorem slots_updateEdge : (g.updateEdge id f).slots = g.slots := by
  unfold updateEdge
  split <;> rfl

@[simp] theorem start_updateEdge : (g.updateEdge id f).start = g.start := by
  unfold updateEdge
  split <;> rfl

@[simp] theorem goal_updateEdge : (g.updateEdge id f).goal = g.goal := by
  unfold updateEdge
  split <;> rfl

@[simp] theorem grid_updateEdge : (g.updateEdge id f).grid = g.grid := by
  unfold updateEdge
  split <;> rfl

@[simp] theorem index_updateEdge : (g.updateEdge id f).index = g.index := by
  unfold updateEdge
  split <;> rfl

end UpdateEdge

theorem edgeAt?_dropNode {g : Graph} {slot : Nat} (h : g.Live slot) (p : Nat) :
    (g.dropNode slot).edgeAt? p = (g.edgeAt? p).filter fun e => !e.touches slot := by
  obtain ⟨n, hn⟩ := live_iff.mp h
  unfold dropNode
  rw [hn]
  cases hedge : g.edges[p]? with
  | none => simp [edgeAt?, hedge]
  | some entry => simp [edgeAt?, hedge]

/-! ## Mutations -/

/-- A change of a node that leaves its address and its place alone. -/
def SameNode (f : Node → Node) : Prop :=
  ∀ n, (f n).slot = n.slot ∧ (f n).id = n.id ∧ (f n).x = n.x ∧ (f n).y = n.y

/-- A change of an edge that leaves its number and its ends alone. -/
def SameEdge (f : Edge → Edge) : Prop :=
  ∀ e, (f e).id = e.id ∧ (f e).source = e.source ∧ (f e).target = e.target

/-- The ways in which a graph is changed. -/
inductive Mutation : Graph → Graph → Prop
  | settings (g : Graph) (needsRedraw : Bool) (outcome : Outcome) (defaultBidirectional physicsEnabled : Bool) :
      Mutation g { g with needsRedraw, outcome, defaultBidirectional, physicsEnabled }
  | unindex (g : Graph) : Mutation g g.unindex
  | reindex (g : Graph) : Mutation g g.reindex
  | grid (g : Graph) (hgrid : g.isGrid = true) (next : GridSpec) : Mutation g { g with grid := some next }
  | addNode (g : Graph) {id : String} (x y : Nat) (data : Bag) (hnew : g.slot? id = none) :
      Mutation g (g.withNode id x y data)
  | dropNode (g : Graph) (slot : Nat) : Mutation g (g.dropNode slot)
  | changeNode (g : Graph) (slot : Nat) {f : Node → Node} (hf : SameNode f) : Mutation g (g.modifyNode slot f)
  | addEdge (g : Graph) {source target : Nat} (bidirectional : Bool) (data : Bag) (hsource : g.Live source)
      (htarget : g.Live target) : Mutation g (g.withEdge source target bidirectional data).restructured
  | linkCells (g : Graph) {source target : Nat} (hsource : g.Live source) (htarget : g.Live target) :
      Mutation g (g.linkCells source target).2
  | takeEdgeId (g : Graph) : Mutation g g.takeEdgeId.2
  | changeEdge (g : Graph) (id : EdgeId) {f : Edge → Edge} (hf : SameEdge f) :
      Mutation g (g.updateEdge id fun e => some (f e))
  | removeEdge (g : Graph) (id : EdgeId) : Mutation g (g.updateEdge id fun _ => none).restructured
  | reorientEdge (g : Graph) (id : EdgeId) :
      Mutation g (g.updateEdge id fun e => some { e with source := e.target, target := e.source }).restructured
  | setStart (g : Graph) (slot : Option Nat) (hlive : ∀ s, slot = some s → g.Live s) :
      Mutation g { g with start := slot, needsRedraw := true }
  | setGoal (g : Graph) (slot : Option Nat) (hlive : ∀ s, slot = some s → g.Live s) :
      Mutation g { g with goal := slot, needsRedraw := true }
  | resetSearch (g : Graph) : Mutation g g.resetSearch

namespace Arena

/-- The graph without nodes has right addresses, whatever its size is to become. -/
theorem empty (grid : Option GridSpec) : Arena { grid } where
  slot := by simp [node?]
  lookup := by simp [node?, slot?]
  number := by simp [edgeAt?]
  ends := by simp [edgeAt?]
  start := by simp
  goal := by simp

/-- No node has an id that is not looked up. -/
theorem ne_id {g : Graph} (h : g.Arena) {id : String} (hnew : g.slot? id = none) {s : Nat} {n : Node}
    (hn : g.node? s = some n) : n.id ≠ id := by
  intro hid
  have hfound := (h.lookup id s).mpr ⟨n, hn, hid⟩
  rw [hnew] at hfound
  exact absurd hfound (by simp)

/-- The slot of an id is the only one. -/
theorem slot_unique {g : Graph} (h : g.Arena) {s s' : Nat} {id : String} (hs : g.idOf? s = some id)
    (hs' : g.idOf? s' = some id) : s = s' := by
  obtain ⟨n, hn, hid⟩ := Option.map_eq_some_iff.mp hs
  obtain ⟨n', hn', hid'⟩ := Option.map_eq_some_iff.mp hs'
  have hslot := (h.lookup id s).mpr ⟨n, hn, hid⟩
  have hslot' := (h.lookup id s').mpr ⟨n', hn', hid'⟩
  exact Option.some.inj (hslot.symm.trans hslot')

/-- No two nodes have the same id. -/
theorem nodup_ids {g : Graph} (h : g.Arena) : (g.nodeList.map Node.id).Nodup := by
  have hids : g.nodeList.map Node.id = (List.range g.nodes.size).filterMap g.idOf? := by
    rw [nodeList_eq, List.map_filterMap]
    rfl
  rw [hids]
  exact List.nodup_range.filterMap fun s s' id hs hs' => h.slot_unique hs hs'

/-- No two nodes are in the same slot. -/
theorem nodup_slots {g : Graph} (h : g.Arena) : (g.nodeList.map Node.slot).Nodup := by
  have hslots : g.nodeList.map Node.slot = (List.range g.nodes.size).filterMap fun s => (g.node? s).map Node.slot := by
    rw [nodeList_eq, List.map_filterMap]
  rw [hslots]
  refine List.Nodup.filterMap ?_ List.nodup_range
  intro s s' slot hs hs'
  obtain ⟨n, hn, rfl⟩ := Option.map_eq_some_iff.mp hs
  obtain ⟨n', hn', hsame⟩ := Option.map_eq_some_iff.mp hs'
  rw [← h.slot hn, ← h.slot hn', hsame]

/-- A stored edge is at the place that its number says. -/
theorem place?_id {g : Graph} (h : g.Arena) {p : Nat} {e : Edge} (he : g.edgeAt? p = some e) : place? e.id = some p :=
  place?_eq_some_iff.mpr (.inl (h.number he))

/-- No two edges are at the same place. -/
theorem eq_of_place? {g : Graph} (h : g.Arena) {e e' : Edge} (he : e ∈ g.edgeList) (he' : e' ∈ g.edgeList)
    (hplace : place? e.id = place? e'.id) : e = e' := by
  obtain ⟨p, hp⟩ := mem_edgeList.mp he
  obtain ⟨p', hp'⟩ := mem_edgeList.mp he'
  rw [h.place?_id hp, h.place?_id hp'] at hplace
  obtain rfl := Option.some.inj hplace
  exact Option.some.inj (hp.symm.trans hp')

/-- Changing a stored edge in the list of all. -/
theorem edgeList_changeEdge {g : Graph} (h : g.Arena) (id : EdgeId) (f : Edge → Edge) :
    (g.updateEdge id fun e => some (f e)).edgeList =
      g.edgeList.map fun e => if place? e.id = place? id then f e else e := by
  have hsize : (g.updateEdge id fun e => some (f e)).edges.size = g.edges.size := by
    unfold updateEdge
    split <;> simp
  rw [edgeList_eq, edgeList_eq, hsize, List.map_filterMap]
  refine List.filterMap_congr fun p _ => ?_
  rw [edgeAt?_changeEdge]
  cases hp : g.edgeAt? p with
  | none => simp
  | some e =>
      simp only [Option.map_some, h.place?_id hp]
      by_cases hid : place? id = some p
      · simp [hid]
      · simp [hid, Ne.symm hid]

/-- An edge ends at nodes, in whichever direction it is seen. -/
theorem live_of_view {g : Graph} (h : g.Arena) {v : EdgeView} (hedge : v.edge ∈ g.edgeList) :
    g.Live v.source ∧ g.Live v.target := by
  obtain ⟨p, hp⟩ := mem_edgeList.mp hedge
  obtain ⟨e, reversed⟩ := v
  cases reversed
  · exact h.ends hp
  · exact (h.ends hp).symm

/-- A slot that is looked up holds a node. -/
theorem live_of_slot? {g : Graph} (h : g.Arena) {id : String} {slot : Nat} (hslot : g.slot? id = some slot) :
    g.Live slot := by
  obtain ⟨n, hn, _⟩ := (h.lookup id slot).mp hslot
  exact live_iff.mpr ⟨n, hn⟩

theorem withNode {g : Graph} (h : g.Arena) {id : String} (x y : Nat) (data : Bag) (hnew : g.slot? id = none) :
    (g.withNode id x y data).Arena := by
  have hlive : ∀ {s}, g.Live s → (g.withNode id x y data).Live s := by
    intro s hs
    obtain ⟨n, hn⟩ := live_iff.mp hs
    have hne : s ≠ g.nodes.size := by
      rintro rfl
      rw [node?_size] at hn
      exact absurd hn (by simp)
    exact live_iff.mpr ⟨n, by rw [node?_withNode, if_neg hne, hn]⟩
  refine ⟨?_, ?_, h.number, ?_, fun hs => hlive (h.start hs), fun hs => hlive (h.goal hs)⟩
  · intro s n hn
    rw [node?_withNode] at hn
    split at hn
    · rename_i hs
      cases hn
      exact hs.symm
    · exact h.slot hn
  · intro other s
    rw [slot?_withNode, node?_withNode]
    by_cases hid : id = other
    · subst hid
      by_cases hs : s = g.nodes.size
      · simp [hs]
      · have hold : ¬ ∃ n, g.node? s = some n ∧ n.id = id := by
          rintro ⟨n, hn, hnid⟩
          exact h.ne_id hnew hn hnid
        simp [hs, Ne.symm hs, hold]
    · by_cases hs : s = g.nodes.size
      · have hold : g.slot? other ≠ some g.nodes.size := by
          intro hfound
          obtain ⟨n, hn, _⟩ := (h.lookup other g.nodes.size).mp hfound
          rw [node?_size] at hn
          exact absurd hn (by simp)
        simp [hs, hid, hold]
      · simp [hs, hid, h.lookup]
  · intro p e he
    have hends := h.ends (p := p) he
    exact ⟨hlive hends.1, hlive hends.2⟩

/-- The id of a dropped node leads nowhere, and no other node has it; all other ids lead where they did. -/
theorem lookup_dropNode {g : Graph} (h : g.Arena) {slot : Nat} {n : Node} (hnode : g.node? slot = some n) (id : String)
    (s : Nat) : (g.dropNode slot).slot? id = some s ↔ ∃ m, (g.dropNode slot).node? s = some m ∧ m.id = id := by
  rw [slot?_dropNode hnode, node?_dropNode]
  by_cases hid : n.id = id
  · have hfound := (h.lookup id slot).mpr ⟨n, hnode, hid⟩
    by_cases hs : slot = s
    · simp [hid, hs]
    · have hother : ¬ ∃ m, g.node? s = some m ∧ m.id = id := by
        intro hm
        have hsame := (h.lookup id s).mpr hm
        rw [hfound] at hsame
        exact hs (Option.some.inj hsame)
      simp [hid, hs, hother]
  · by_cases hs : slot = s
    · subst hs
      have hother : g.slot? id ≠ some slot := by
        intro hfound
        obtain ⟨m, hm, hmid⟩ := (h.lookup id slot).mp hfound
        rw [hnode] at hm
        cases hm
        exact hid hmid
      simp [hid, hother]
    · simp [hid, hs, h.lookup]

theorem dropNode {g : Graph} (h : g.Arena) (slot : Nat) : (g.dropNode slot).Arena := by
  cases hnode : g.node? slot with
  | none => rwa [dropNode_of_none hnode]
  | some n =>
      have hstart : (g.dropNode slot).start = if g.start = some slot then none else g.start := by
        simp [Graph.dropNode, hnode]
      have hgoal : (g.dropNode slot).goal = if g.goal = some slot then none else g.goal := by
        simp [Graph.dropNode, hnode]
      have hedges := edgeAt?_dropNode (live_iff.mpr ⟨n, hnode⟩)
      refine ⟨?_, h.lookup_dropNode hnode, ?_, ?_, ?_, ?_⟩
      · intro s m hm
        rw [node?_dropNode] at hm
        split at hm
        · exact absurd hm (by simp)
        · exact h.slot hm
      · intro p e he
        rw [hedges, Option.filter_eq_some_iff] at he
        exact h.number he.1
      · intro p e he
        rw [hedges, Option.filter_eq_some_iff] at he
        have hends := h.ends he.1
        have htouches : e.source ≠ slot ∧ e.target ≠ slot := by simpa [Edge.touches] using he.2
        exact ⟨live_dropNode hends.1 htouches.1, live_dropNode hends.2 htouches.2⟩
      · intro s hs
        rw [hstart] at hs
        split at hs
        · exact absurd hs (by simp)
        · rename_i hne
          exact live_dropNode (h.start hs) fun hslot => hne (hslot ▸ hs)
      · intro s hs
        rw [hgoal] at hs
        split at hs
        · exact absurd hs (by simp)
        · rename_i hne
          exact live_dropNode (h.goal hs) fun hslot => hne (hslot ▸ hs)

/-- Addresses stay right where the nodes keep theirs and whatever leads to a node leads to one that was there. -/
theorem of_same_nodes {g g' : Graph} (h : g.Arena) (hslots : ∀ id, g'.slot? id = g.slot? id)
    (hnodes : ∀ s, (g'.node? s).map (fun n => (n.slot, n.id)) = (g.node? s).map fun n => (n.slot, n.id))
    (hedges : ∀ p e, g'.edgeAt? p = some e → e.id = ⟨p + 1⟩ ∧ g.Live e.source ∧ g.Live e.target)
    (hstart : ∀ s, g'.start = some s → g.Live s) (hgoal : ∀ s, g'.goal = some s → g.Live s) : g'.Arena := by
  have hlive : ∀ {s}, g.Live s → g'.Live s := by
    intro s hs
    have hsome := congrArg Option.isSome (hnodes s)
    rw [Option.isSome_map, Option.isSome_map] at hsome
    exact hsome.trans hs
  have hback : ∀ {s n}, g'.node? s = some n → ∃ m, g.node? s = some m ∧ m.slot = n.slot ∧ m.id = n.id := by
    intro s n hn
    have hkey := hnodes s
    rw [hn] at hkey
    obtain ⟨m, hm, hmn⟩ := Option.map_eq_some_iff.mp hkey.symm
    obtain ⟨hslot, hid⟩ := Prod.mk.inj hmn
    exact ⟨m, hm, hslot, hid⟩
  have hforth : ∀ {s m}, g.node? s = some m → ∃ n, g'.node? s = some n ∧ n.slot = m.slot ∧ n.id = m.id := by
    intro s m hm
    have hkey := hnodes s
    rw [hm] at hkey
    obtain ⟨n, hn, hnm⟩ := Option.map_eq_some_iff.mp hkey
    obtain ⟨hslot, hid⟩ := Prod.mk.inj hnm
    exact ⟨n, hn, hslot, hid⟩
  refine ⟨?_, ?_, ?_, ?_, fun hs => hlive (hstart _ hs), fun hs => hlive (hgoal _ hs)⟩
  · intro s n hn
    obtain ⟨m, hm, hslot, _⟩ := hback hn
    rw [← hslot]
    exact h.slot hm
  · intro id s
    rw [hslots, h.lookup]
    constructor
    · rintro ⟨m, hm, hid⟩
      obtain ⟨n, hn, _, hnm⟩ := hforth hm
      exact ⟨n, hn, hnm.trans hid⟩
    · rintro ⟨n, hn, hid⟩
      obtain ⟨m, hm, _, hmn⟩ := hback hn
      exact ⟨m, hm, hmn.trans hid⟩
  · intro p e he
    exact (hedges p e he).1
  · intro p e he
    exact ⟨hlive (hedges p e he).2.1, hlive (hedges p e he).2.2⟩

/-- The addresses of edges that are there. -/
theorem edge {g : Graph} (h : g.Arena) {p : Nat} {e : Edge} (he : g.edgeAt? p = some e) :
    e.id = ⟨p + 1⟩ ∧ g.Live e.source ∧ g.Live e.target :=
  ⟨h.number he, h.ends he⟩

/-- Addresses do not depend on what stands beside nodes, edges and the two ends. -/
theorem of_eq {g g' : Graph} (h : g.Arena) (hnodes : g'.nodes = g.nodes) (hslots : g'.slots = g.slots)
    (hedges : ∀ p e, g'.edgeAt? p = some e → e.id = ⟨p + 1⟩ ∧ g.Live e.source ∧ g.Live e.target)
    (hstart : ∀ s, g'.start = some s → g.Live s) (hgoal : ∀ s, g'.goal = some s → g.Live s) : g'.Arena :=
  h.of_same_nodes (fun id => by rw [slot?, slot?, hslots]) (fun s => by rw [node?, node?, hnodes]) hedges hstart
    hgoal

theorem withEdge {g : Graph} (h : g.Arena) {source target : Nat} (bidirectional : Bool) (data : Bag)
    (hsource : g.Live source) (htarget : g.Live target) : (g.withEdge source target bidirectional data).Arena := by
  refine h.of_eq rfl rfl ?_ (fun _ => h.start) fun _ => h.goal
  intro p e he
  rw [edgeAt?_withEdge] at he
  split at he
  · rename_i hp
    cases he
    exact ⟨by simp [nextEdgeId, hp], hsource, htarget⟩
  · exact h.edge he

/-- A change of an edge that keeps its number, and its ends among the old ones, keeps the addresses. -/
theorem updateEdge {g : Graph} (h : g.Arena) (id : EdgeId) {f : Edge → Option Edge}
    (hf : ∀ e e', f e = some e' → e'.id = e.id ∧ (g.Live e.source ∧ g.Live e.target →
      g.Live e'.source ∧ g.Live e'.target)) : (g.updateEdge id f).Arena := by
  refine h.of_eq (nodes_updateEdge g id f) (slots_updateEdge g id f) ?_ (fun s hs => h.start (s := s) (by simpa using hs))
    fun s hs => h.goal (s := s) (by simpa using hs)
  intro p e' he'
  rw [edgeAt?_updateEdge] at he'
  split at he'
  · obtain ⟨e, he, hfe⟩ := Option.bind_eq_some_iff.mp he'
    obtain ⟨hid, hends⟩ := hf e e' hfe
    exact ⟨hid.trans (h.number he), hends (h.ends he)⟩
  · exact h.edge he'

theorem modifyNode {g : Graph} (h : g.Arena) (slot : Nat) {f : Node → Node} (hf : SameNode f) :
    (g.modifyNode slot f).Arena := by
  refine h.of_same_nodes (fun _ => rfl) (fun s => ?_) (fun p e he => h.edge (p := p) he) (fun _ => h.start)
    fun _ => h.goal
  rw [node?_modifyNode]
  split
  · rw [Option.map_map]
    congr 1
    funext n
    obtain ⟨hslot, hid, _⟩ := hf n
    simp [hslot, hid]
  · rfl

theorem resetSearch {g : Graph} (h : g.Arena) : g.resetSearch.Arena := by
  refine h.of_same_nodes (fun _ => rfl) (fun s => ?_) ?_ (fun _ => h.start) fun _ => h.goal
  · cases hnode : g.nodes[s]? with
    | none => simp [Graph.resetSearch, node?, hnode]
    | some entry => cases entry <;> simp [Graph.resetSearch, node?, hnode]
  · intro p e he
    cases hedge : g.edges[p]? with
    | none => simp [Graph.resetSearch, edgeAt?, hedge] at he
    | some entry =>
        cases entry with
        | none => simp [Graph.resetSearch, edgeAt?, hedge] at he
        | some old =>
            have hold : g.edgeAt? p = some old := by simp [edgeAt?, hedge]
            simp only [Graph.resetSearch, edgeAt?, Array.getElem?_map, hedge, Option.map_some, Option.join_some,
              Option.some.injEq] at he
            subst he
            have haddress := h.edge hold
            exact haddress

end Arena

/-- **A mutation keeps the addresses right.** -/
theorem Mutation.arena {g g' : Graph} (hmutation : Mutation g g') (h : g.Arena) : g'.Arena := by
  have hsame : ∀ {g' : Graph}, g'.nodes = g.nodes → g'.slots = g.slots → g'.edges = g.edges →
      g'.start = g.start → g'.goal = g.goal → g'.Arena := by
    intro g' hnodes hslots hedges hstart hgoal
    refine h.of_eq hnodes hslots ?_ (fun _ hs => h.start (hstart ▸ hs)) fun _ hs => h.goal (hgoal ▸ hs)
    intro p e he
    rw [edgeAt?, hedges] at he
    exact h.edge he
  cases hmutation with
  | settings | unindex | reindex | grid => exact hsame rfl rfl rfl rfl rfl
  | addNode x y data hnew => exact h.withNode x y data hnew
  | dropNode slot => exact h.dropNode slot
  | changeNode slot hf => exact h.modifyNode slot hf
  | addEdge bidirectional data hsource htarget =>
      have hadded := h.withEdge bidirectional data hsource htarget
      exact ⟨hadded.slot, hadded.lookup, hadded.number, hadded.ends, hadded.start, hadded.goal⟩
  | linkCells hsource htarget =>
      have hadded := h.withEdge true [] hsource htarget
      exact ⟨hadded.slot, hadded.lookup, hadded.number, hadded.ends, hadded.start, hadded.goal⟩
  | takeEdgeId =>
      refine h.of_eq rfl rfl ?_ (fun _ => h.start) fun _ => h.goal
      intro p e he
      rw [edgeAt?_takeEdgeId] at he
      exact h.edge he
  | changeEdge id hf =>
      refine h.updateEdge id fun e e' he => ?_
      cases he
      obtain ⟨hid, hsource, htarget⟩ := hf e
      rw [hid, hsource, htarget]
      exact ⟨rfl, fun hends => hends⟩
  | removeEdge id =>
      have hremoved := h.updateEdge id (f := fun _ => none) fun e e' he => by simp at he
      exact ⟨hremoved.slot, hremoved.lookup, hremoved.number, hremoved.ends, hremoved.start, hremoved.goal⟩
  | reorientEdge id =>
      have hturned := h.updateEdge id (f := fun e => some { e with source := e.target, target := e.source })
        fun e e' he => by
          cases he
          exact ⟨rfl, fun hends => ⟨hends.2, hends.1⟩⟩
      exact ⟨hturned.slot, hturned.lookup, hturned.number, hturned.ends, hturned.start, hturned.goal⟩
  | setStart slot hlive =>
      exact h.of_eq rfl rfl (fun p e he => h.edge (p := p) he) hlive fun _ => h.goal
  | setGoal slot hlive =>
      exact h.of_eq rfl rfl (fun p e he => h.edge (p := p) he) (fun _ => h.start) hlive
  | resetSearch => exact h.resetSearch

/-- A grid stays a grid, and a free-form graph stays free-form. -/
theorem Mutation.isGrid {g g' : Graph} (hmutation : Mutation g g') : g'.isGrid = g.isGrid := by
  cases hmutation with
  | grid hgrid next => exact hgrid.symm
  | dropNode slot =>
      unfold Graph.dropNode
      split <;> rfl
  | changeEdge id hf | removeEdge id | reorientEdge id => simp [Graph.isGrid, restructured]
  | _ => rfl

end SearchLab.Graph
