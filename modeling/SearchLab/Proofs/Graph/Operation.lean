import Mathlib.Logic.Relation
import SearchLab.Graph.Inspect
import SearchLab.Proofs.Edit
import SearchLab.Proofs.Graph.Arena

/-!
# Operations on graphs

`Operation` lists what can be done with a graph from outside, reading the index included. An operation may fail, and
then what it did before stays done; `run` says what it leaves behind either way. Each operation is a run of mutations.

* `Stable.edit` — what an operation keeps is a matter of a few edits: those that add and drop nodes, and those that
  complete the edges of a grid;
* `Operation.keeps_edit` — what an operation leaves behind, mutations lead to;
* `mutated_runAll` — the same for any sequence of operations.
-/

namespace SearchLab.Graph

open Relation (ReflTransGen)

/-- What can be done with a graph from outside. -/
inductive Operation where
  | addNode (id : String) (data : Bag)
  | removeNode (slot : Nat)
  | addEdge (source target : Nat) (bidirectional : Bool) (data : Bag)
  | removeEdge (id : EdgeId)
  | reorientEdge (id : EdgeId)
  /-- Replaces the bags of a node. -/
  | setNode (slot : Nat) (data style : Bag)
  /-- Replaces the flag and the bags of a stored edge. -/
  | setEdge (id : EdgeId) (bidirectional : Bool) (data style : Bag)
  | setStart (slot : Option Nat)
  | setGoal (slot : Option Nat)
  | setOutcome (outcome : Outcome)
  | setNodeState (slot : Nat) (state : String)
  | resetSearch
  | setProperty (target : Target) (name : String) (value : Json)
  | setDefaults (defaultBidirectional physicsEnabled : Bool)
  | completeEdges (slot : Nat)
  | completeAllEdges
  | setDiagonal (diagonal : Diagonal)
  | resize (width height : Nat)
  | takeEdgeId
  /-- Brings the index up to date, as every look-up of edges does. -/
  | reindex
  | unindex
  | redraw
  | drawn

namespace Operation

/-- The edit that an operation is. -/
def edit : Operation → Edit Graph Unit
  | addNode id data => do
    let _ ← Graph.addNode id data
  | removeNode slot => do
    let _ ← Graph.removeNode slot
  | addEdge source target bidirectional data => do
    let _ ← Graph.addEdge source target bidirectional data
  | removeEdge id => do
    let _ ← Graph.removeEdge id
  | reorientEdge id => Graph.reorientEdge id
  | setNode slot data style => modify fun g => g.modifyNode slot fun n => { n with data, style }
  | setEdge id bidirectional data style =>
    modify fun g => g.modifyEdge id fun e => { e with bidirectional, data, style }
  | setStart slot => Graph.setStart slot
  | setGoal slot => Graph.setGoal slot
  | setOutcome outcome => modify fun g => g.setOutcome outcome
  | setNodeState slot state => Graph.setNodeState slot state
  | resetSearch => modify Graph.resetSearch
  | setProperty target name value => do
    let _ ← Graph.setProperty target name value
  | setDefaults defaultBidirectional physicsEnabled =>
    modify fun g => { g with defaultBidirectional, physicsEnabled }
  | completeEdges slot => Graph.completeEdges slot
  | completeAllEdges => Graph.completeAllEdges
  | setDiagonal diagonal => Graph.setDiagonal diagonal
  | resize width height => Graph.resize width height
  | takeEdgeId => modify fun g => g.takeEdgeId.2
  | reindex => modify Graph.reindex
  | unindex => modify Graph.unindex
  | redraw => modify Graph.redraw
  | drawn => modify Graph.drawn

/-- What an operation leaves behind, also when it fails. -/
def run (op : Operation) (g : Graph) : Graph := op.edit.after g

end Operation

/-- What a sequence of operations leaves behind. -/
def runAll (ops : List Operation) (g : Graph) : Graph := ops.foldl (fun g op => op.run g) g

/-- A graph with right addresses to which mutations lead. -/
structure Mutated (origin g : Graph) : Prop where
  arena : g.Arena
  path : ReflTransGen Mutation origin g

namespace Mutated

variable {origin g : Graph}

theorem step (h : Mutated origin g) {g' : Graph} (hmutation : Mutation g g') : Mutated origin g' :=
  ⟨hmutation.arena h.arena, h.path.tail hmutation⟩

theorem trans {next : Graph} (h : Mutated origin g) (hnext : Mutated g next) : Mutated origin next :=
  ⟨hnext.arena, h.path.trans hnext.path⟩

/-- Mutations do not make a grid of a free-form graph, nor the other way round. -/
theorem isGrid (h : Mutated origin g) : g.isGrid = origin.isGrid := by
  have hpath := h.path
  clear h
  induction hpath with
  | refl => rfl
  | tail _ hmutation ih => exact hmutation.isGrid.trans ih

theorem redraw (h : Mutated origin g) : Mutated origin g.redraw :=
  h.step (.settings g true g.outcome g.defaultBidirectional g.physicsEnabled)

theorem reindex (h : Mutated origin g) : Mutated origin g.reindex :=
  h.step (.reindex g)

theorem modifyNode (h : Mutated origin g) (slot : Nat) {f : Node → Node} (hf : SameNode f) :
    Mutated origin (g.modifyNode slot f) :=
  h.step (.changeNode g slot hf)

theorem modifyEdge (h : Mutated origin g) (id : EdgeId) {f : Edge → Edge} (hf : SameEdge f) :
    Mutated origin (g.modifyEdge id f) :=
  (h.step (.changeEdge g id hf)).redraw

end Mutated

/-! ## What is added -/

section Adding

variable {g g' : Graph} {id : String} {x y slot source target : Nat} {bidirectional : Bool} {data : Bag}

theorem contains_slots (g : Graph) (id : String) : g.slots.contains id = (g.slot? id).isSome :=
  Std.HashMap.contains_eq_isSome_getElem?

/-- A node is added just where its id leads nowhere, and it gets the next slot. -/
theorem insertNode_ok_iff : insertNode id x y data g = .ok slot g' ↔
    g.slot? id = none ∧ slot = g.nodes.size ∧ g' = g.withNode id x y data := by
  cases hslot : g.slot? id with
  | some found => simp [insertNode, contains_slots, hslot]
  | none => simp [insertNode, contains_slots, hslot, withNode, eq_comm]

/-- Nodes are not added to a grid. -/
theorem addNode_ok_iff : addNode id data g = .ok slot g' ↔
    g.isGrid = false ∧ g.slot? id = none ∧ slot = g.nodes.size ∧ g' = g.withNode id 0 0 data := by
  unfold addNode
  by_cases hgrid : g.isGrid = true
  · simp [hgrid]
  · simp [hgrid, insertNode_ok_iff]

/-- An edge is added just between two nodes, and it gets the next number. -/
theorem addEdge_ok_iff {edge : EdgeId} : addEdge source target bidirectional data g = .ok edge g' ↔
    g.Live source ∧ g.Live target ∧ edge = g.nextEdgeId ∧
      g' = (g.withEdge source target bidirectional data).restructured := by
  cases hsource : g.node? source with
  | none => simp [addEdge, Live, hsource]
  | some a =>
      cases htarget : g.node? target with
      | none => simp [addEdge, Live, hsource, htarget]
      | some b => simp [addEdge, Live, hsource, htarget, withEdge, eq_comm]

theorem insertCell_of_some {cell : Nat × Nat} (hslot : g.slot? (cellId cell.1 cell.2) = some slot) :
    insertCell cell g = .ok () g := by
  simp [insertCell, hslot]

theorem insertCell_of_none {cell : Nat × Nat} (hslot : g.slot? (cellId cell.1 cell.2) = none) :
    insertCell cell g = .ok () (g.withNode (cellId cell.1 cell.2) cell.1 cell.2 []) := by
  have hinsert : insertNode (cellId cell.1 cell.2) cell.1 cell.2 [] g = .ok _ _ := insertNode_ok_iff.mpr ⟨hslot, rfl, rfl⟩
  simp [insertCell, hslot, hinsert]

/-- A node is refused, or its id is new and it is added. -/
theorem after_addNode (g : Graph) (id : String) (data : Bag) :
    (addNode id data).after g = g ∨ g.slot? id = none ∧ (addNode id data).after g = g.withNode id 0 0 data := by
  cases hadd : addNode id data g with
  | ok slot g' =>
      obtain ⟨-, hnew, -, rfl⟩ := addNode_ok_iff.mp hadd
      exact .inr ⟨hnew, Edit.after_ok hadd⟩
  | error e g' =>
      rw [Edit.after_error hadd]
      unfold addNode insertNode at hadd
      split at hadd
      · cases hadd
        exact .inl rfl
      · split at hadd <;> cases hadd
        exact .inl rfl

/-- An edge is refused, or there is a node at either end and it is added. -/
theorem after_addEdge (g : Graph) (source target : Nat) (bidirectional : Bool) (data : Bag) :
    (addEdge source target bidirectional data).after g = g ∨ g.Live source ∧ g.Live target ∧
      (addEdge source target bidirectional data).after g = (g.withEdge source target bidirectional data).restructured := by
  cases hsource : g.node? source with
  | none => exact .inl (by simp [Edit.after, addEdge, hsource])
  | some a =>
      cases htarget : g.node? target with
      | none => exact .inl (by simp [Edit.after, addEdge, hsource, htarget])
      | some b =>
          have hends : g.Live source ∧ g.Live target := ⟨live_iff.mpr ⟨a, hsource⟩, live_iff.mpr ⟨b, htarget⟩⟩
          exact .inr ⟨hends.1, hends.2, Edit.after_ok (addEdge_ok_iff.mpr ⟨hends.1, hends.2, rfl, rfl⟩)⟩

end Adding

/-! ## One edit after the other -/

section Edits

variable {origin : Graph}

theorem keeps_addNode (id : String) (data : Bag) : (addNode id data).Keeps (Mutated origin) := by
  intro g hg
  rcases after_addNode g id data with hafter | ⟨hnew, hafter⟩
  · rwa [hafter]
  · rw [hafter]
    exact hg.step (.addNode g 0 0 data hnew)

theorem keeps_removeNode (slot : Nat) : (removeNode slot).Keeps (Mutated origin) := by
  intro g hg
  have hdropped := hg.step (.dropNode g slot)
  by_cases hgrid : g.isGrid = true
  · simpa [Edit.after, removeNode, hgrid] using hg
  · by_cases hgoal : g.goal = some slot
    · simpa [Edit.after, removeNode, hgrid, hgoal] using hg
    · by_cases hstart : g.start = some slot
      · simpa [Edit.after, removeNode, hgrid, hgoal, hstart] using hg
      · simpa [Edit.after, removeNode, hgrid, hgoal, hstart] using hdropped

/-- A slot that passes the check holds a node. -/
theorem live_of_checkSlot {g : Graph} {slot : Option Nat} (h : g.checkSlot slot = .ok ()) :
    ∀ s, slot = some s → g.Live s := by
  rintro s rfl
  by_cases hs : (g.node? s).isSome = true
  · exact hs
  · simp [checkSlot, hs] at h

/-- A start is refused, or its slot holds a node and it is set. -/
theorem after_setStart (g : Graph) (slot : Option Nat) :
    (setStart slot).after g = g ∨
      (∀ s, slot = some s → g.Live s) ∧ (setStart slot).after g = { g with start := slot, needsRedraw := true } := by
  cases hcheck : g.checkSlot slot with
  | error e => exact .inl (by simp [Edit.after, setStart, hcheck])
  | ok _ => exact .inr ⟨live_of_checkSlot hcheck, by simp [Edit.after, setStart, hcheck]⟩

/-- A goal is refused, or its slot holds a node and it is set. -/
theorem after_setGoal (g : Graph) (slot : Option Nat) :
    (setGoal slot).after g = g ∨
      (∀ s, slot = some s → g.Live s) ∧ (setGoal slot).after g = { g with goal := slot, needsRedraw := true } := by
  cases hcheck : g.checkSlot slot with
  | error e => exact .inl (by simp [Edit.after, setGoal, hcheck])
  | ok _ => exact .inr ⟨live_of_checkSlot hcheck, by simp [Edit.after, setGoal, hcheck]⟩

theorem setStart_of_live {g : Graph} {slot : Nat} (h : g.Live slot) :
    setStart (some slot) g = .ok () { g with start := some slot, needsRedraw := true } := by
  obtain ⟨n, hn⟩ := live_iff.mp h
  simp [setStart, checkSlot, hn]

theorem setGoal_of_live {g : Graph} {slot : Nat} (h : g.Live slot) :
    setGoal (some slot) g = .ok () { g with goal := some slot, needsRedraw := true } := by
  obtain ⟨n, hn⟩ := live_iff.mp h
  simp [setGoal, checkSlot, hn]

/-! ## Grids -/

theorem keeps_insertCell (cell : Nat × Nat) : (insertCell cell).Keeps (Mutated origin) := by
  intro g hg
  cases hslot : g.slot? (cellId cell.1 cell.2) with
  | some slot => rwa [Edit.after_ok (insertCell_of_some hslot)]
  | none =>
      rw [Edit.after_ok (insertCell_of_none hslot)]
      exact hg.step (.addNode g cell.1 cell.2 [] hslot)

/-- Weighing an edge anew leaves its number and its ends alone. -/
theorem Mutated.weighDiagonal {g : Graph} (h : Mutated origin g) (id : EdgeId) (diagonal : Diagonal) :
    Mutated origin (g.weighDiagonal id diagonal) :=
  h.step (.changeEdge g id fun _ => ⟨rfl, rfl, rfl⟩)

theorem live_updateEdge (g : Graph) (id : EdgeId) (f : Edge → Option Edge) (s : Nat) :
    (g.updateEdge id f).Live s ↔ g.Live s := by
  simp [Live, node?]

/-- Completing the edge from a node to a cell needs the node. -/
theorem keeps_completeEdge (slot : Nat) (diagonal : Diagonal) (cell : Neighbour) :
    (completeEdge slot diagonal cell).Keeps fun g => Mutated origin g ∧ g.Live slot := by
  rintro g ⟨hg, hlive⟩
  cases hcell : g.cellSlot cell.x cell.y with
  | error e => simpa [Edit.after, completeEdge, hcell] using And.intro hg hlive
  | ok target =>
      have htarget : g.Live target := by
        unfold cellSlot at hcell
        split at hcell
        · rename_i found hslot
          cases hcell
          exact hg.arena.live_of_slot? hslot
        · exact absurd hcell (by simp)
      have hweighed : ∀ {g' : Graph} (id : EdgeId), Mutated origin g' → g'.Live slot →
          Mutated origin (if cell.isDiagonal then g'.weighDiagonal id diagonal else g') ∧
            (if cell.isDiagonal then g'.weighDiagonal id diagonal else g').Live slot := by
        intro g' id hg' hlive'
        split
        · exact ⟨hg'.weighDiagonal id diagonal, (live_updateEdge g' id _ slot).mpr hlive'⟩
        · exact ⟨hg', hlive'⟩
      cases hview : (g.between slot target true).head? with
      | some view => simpa [Edit.after, completeEdge, hcell, hview] using hweighed view.id hg hlive
      | none =>
          have hlinked := hg.step (.linkCells g hlive htarget)
          simpa [Edit.after, completeEdge, hcell, hview] using hweighed _ hlinked hlive

/-- A graph with a size is a grid. -/
theorem isGrid_of_gridSpec {g : Graph} {spec : GridSpec} (h : g.gridSpec = .ok spec) : g.isGrid = true := by
  unfold gridSpec at h
  split at h
  · rename_i hgrid
    rw [isGrid, hgrid, Option.isSome_some]
  · exact absurd h (by simp)

theorem grid_of_gridSpec {g : Graph} {spec : GridSpec} (h : g.gridSpec = .ok spec) : g.grid = some spec := by
  unfold gridSpec at h
  split at h
  · rename_i hgrid
    rw [hgrid, Except.ok.inj h]
  · cases h

/-- Completing the edges around a node keeps what completing each of them keeps, once the index is up to date. -/
theorem keeps_completeEdges_of {P : Graph → Prop} {Q : GridSpec → Graph → Prop} {slot : Nat}
    (hbegin : ∀ {g spec}, P g → g.grid = some spec → g.Live slot → Q spec g.reindex)
    (hcell : ∀ spec cell, (completeEdge slot spec.diagonal cell).Keeps (Q spec)) (hend : ∀ {g spec}, Q spec g → P g) :
    (completeEdges slot).Keeps P := by
  intro g hg
  cases hspec : g.gridSpec with
  | error e => simpa [Edit.after, completeEdges, hspec] using hg
  | ok spec =>
      cases hnode : g.node? slot with
      | none => simpa [Edit.after, completeEdges, hspec, hnode] using hg
      | some n =>
          have hall : (List.forM (neighbours spec.width spec.height n.x n.y)
              (completeEdge slot spec.diagonal)).Keeps (Q spec) :=
            Edit.Keeps.forM fun cell _ => hcell spec cell
          have hafter := hall g.reindex (hbegin hg (grid_of_gridSpec hspec) (live_iff.mpr ⟨n, hnode⟩))
          simpa [Edit.after, completeEdges, hspec, hnode] using hend hafter

theorem keeps_completeAllEdges_of {P : Graph → Prop} (hedges : ∀ slot, (completeEdges slot).Keeps P)
    (hdrawn : ∀ {g}, P g → P g.redraw) : completeAllEdges.Keeps P := by
  intro g hg
  have hall : (List.forM (g.nodeList.map Node.slot) completeEdges).Keeps P :=
    Edit.Keeps.forM fun slot _ => hedges slot
  have hafter := hall g hg
  cases hresult : List.forM (g.nodeList.map Node.slot) completeEdges g with
  | error e g' =>
      rw [Edit.after_error hresult] at hafter
      simpa [Edit.after, completeAllEdges, hresult] using hafter
  | ok _ g' =>
      rw [Edit.after_ok hresult] at hafter
      simpa [Edit.after, completeAllEdges, hresult] using hdrawn hafter

theorem keeps_completeEdges (slot : Nat) : (completeEdges slot).Keeps (Mutated origin) :=
  keeps_completeEdges_of (Q := fun _ g => Mutated origin g ∧ g.Live slot) (fun hg _ hlive => ⟨hg.reindex, hlive⟩)
    (fun spec cell => keeps_completeEdge slot spec.diagonal cell) And.left

theorem keeps_completeAllEdges : completeAllEdges.Keeps (Mutated origin) :=
  keeps_completeAllEdges_of keeps_completeEdges Mutated.redraw

/-- The steps of which completing edges is made keep a property. -/
structure Completing (P : Graph → Prop) : Prop where
  reindex : ∀ {g}, P g → P g.reindex
  redraw : ∀ {g}, P g → P g.redraw
  link : ∀ {g} (source target : Nat), P g → P (g.linkCells source target).2
  weigh : ∀ {g} {spec : GridSpec} (id : EdgeId), g.grid = some spec → P g → P (g.weighDiagonal id spec.diagonal)

namespace Completing

variable {P : Graph → Prop}

theorem edge (h : Completing P) (slot : Nat) (spec : GridSpec) (cell : Neighbour) :
    (completeEdge slot spec.diagonal cell).Keeps fun g => P g ∧ g.grid = some spec := by
  intro g hg
  have hweighed : ∀ {g' : Graph} (id : EdgeId), P g' ∧ g'.grid = some spec →
      P (if cell.isDiagonal then g'.weighDiagonal id spec.diagonal else g') ∧
        (if cell.isDiagonal then g'.weighDiagonal id spec.diagonal else g').grid = some spec := by
    rintro g' id ⟨hg', hgrid⟩
    split
    · exact ⟨h.weigh id hgrid hg', (grid_updateEdge g' id _).trans hgrid⟩
    · exact ⟨hg', hgrid⟩
  cases hcell : g.cellSlot cell.x cell.y with
  | error e => simpa [Edit.after, completeEdge, hcell] using hg
  | ok target =>
      cases hview : (g.between slot target true).head? with
      | some view => simpa [Edit.after, completeEdge, hcell, hview] using hweighed view.id hg
      | none =>
          simpa [Edit.after, completeEdge, hcell, hview] using hweighed _ ⟨h.link slot target hg.1, hg.2⟩

theorem edges (h : Completing P) (slot : Nat) : (completeEdges slot).Keeps P :=
  keeps_completeEdges_of (Q := fun spec g => P g ∧ g.grid = some spec) (fun hg hgrid _ => ⟨h.reindex hg, hgrid⟩)
    (fun spec cell => h.edge slot spec cell) And.left

theorem allEdges (h : Completing P) : completeAllEdges.Keeps P :=
  keeps_completeAllEdges_of h.edges h.redraw

end Completing

theorem keeps_setDiagonal (diagonal : Diagonal) : (setDiagonal diagonal).Keeps (Mutated origin) := by
  intro g hg
  cases hspec : g.gridSpec with
  | error e => simpa [Edit.after, setDiagonal, hspec] using hg
  | ok spec =>
      have hnext := hg.step (.grid g (isGrid_of_gridSpec hspec) { spec with diagonal })
      have hafter := keeps_completeAllEdges _ hnext
      simpa [Edit.after, setDiagonal, hspec] using hafter

/-- Dropping some nodes keeps what mutations keep. -/
theorem Mutated.dropNodes {g : Graph} (h : Mutated origin g) (slots : List Nat) :
    Mutated origin (slots.foldl dropNode g) := by
  induction slots generalizing g with
  | nil => exact h
  | cons slot rest ih => exact ih (h.step (.dropNode g slot))

theorem keeps_resize (width height : Nat) : (resize width height).Keeps (Mutated origin) := by
  intro g hg
  cases hspec : g.gridSpec with
  | error e => simpa [Edit.after, resize, hspec] using hg
  | ok spec =>
      -- The new cells are added first, then those outside dropped, and the size is set.
      have hcells : (List.forM (cells width height) insertCell).Keeps (Mutated g) :=
        Edit.Keeps.forM fun cell _ => keeps_insertCell cell
      have hinserted := hcells g ⟨hg.arena, .refl⟩
      have hsized : ∀ {g'} (slots : List Nat), Mutated g g' →
          Mutated origin (completeAllEdges.after
            { slots.foldl dropNode g' with grid := some { spec with width, height } }) := by
        intro g' slots hg'
        have hdropped := hg'.dropNodes slots
        have hgrid : (slots.foldl dropNode g').isGrid = true :=
          hdropped.isGrid.trans (isGrid_of_gridSpec hspec)
        exact keeps_completeAllEdges _ (hg.trans (hdropped.step (.grid _ hgrid { spec with width, height })))
      unfold Edit.after resize
      simp only [hspec]
      generalize hslots : (g.nodeList.filter fun n => decide (width ≤ n.x) || decide (height ≤ n.y)).map Node.slot =
        slots
      by_cases hends : (slots.any fun slot => decide (some slot = g.start) || decide (some slot = g.goal)) = true
      · rw [if_pos hends]
        exact hg
      · rw [if_neg hends]
        cases hresult : List.forM (cells width height) insertCell g with
        | error e g' =>
            rw [Edit.after_error hresult] at hinserted
            exact hg.trans hinserted
        | ok _ g' =>
            rw [Edit.after_ok hresult] at hinserted
            exact hsized slots hinserted

end Edits

/-! ## What operations keep -/

/-- Two graphs have the same size, the same ids lead to the same slots, and the nodes in these stand in the same
places. -/
structure SamePlan (g g' : Graph) : Prop where
  grid : g'.grid = g.grid
  slots : g'.slots = g.slots
  places : ∀ s, (g'.node? s).map (fun n => (n.x, n.y)) = (g.node? s).map fun n => (n.x, n.y)

namespace SamePlan

variable {g g' : Graph}

theorem of_nodes (hgrid : g'.grid = g.grid) (hslots : g'.slots = g.slots) (hnodes : g'.nodes = g.nodes) :
    SamePlan g g' :=
  ⟨hgrid, hslots, fun s => by rw [node?, node?, hnodes]⟩

theorem symm (h : SamePlan g g') : SamePlan g' g :=
  ⟨h.grid.symm, h.slots.symm, fun s => (h.places s).symm⟩

theorem updateEdge (g : Graph) (id : EdgeId) (f : Edge → Option Edge) : SamePlan g (g.updateEdge id f) :=
  .of_nodes (grid_updateEdge g id f) (slots_updateEdge g id f) (nodes_updateEdge g id f)

theorem modifyNode (g : Graph) (slot : Nat) {f : Node → Node} (hf : SameNode f) : SamePlan g (g.modifyNode slot f) := by
  refine ⟨rfl, rfl, fun s => ?_⟩
  rw [node?_modifyNode]
  split
  · rw [Option.map_map]
    congr 1
    funext n
    obtain ⟨_, _, hx, hy⟩ := hf n
    simp [hx, hy]
  · rfl

theorem resetSearch (g : Graph) : SamePlan g g.resetSearch := by
  refine ⟨rfl, rfl, fun s => ?_⟩
  cases hnode : g.nodes[s]? with
  | none => simp [Graph.resetSearch, node?, hnode]
  | some entry => cases entry <;> simp [Graph.resetSearch, node?, hnode]

end SamePlan

/-- A property that mutations keep which leave the nodes where they are, and so do the edits that do not. -/
structure Stable (P : Graph → Prop) : Prop where
  step : ∀ {g g'}, P g → Mutation g g' → SamePlan g g' → P g'
  addNode : ∀ id data, (addNode id data).Keeps P
  removeNode : ∀ slot, (removeNode slot).Keeps P
  completeEdges : ∀ slot, (completeEdges slot).Keeps P
  completeAllEdges : completeAllEdges.Keeps P
  setDiagonal : ∀ diagonal, (setDiagonal diagonal).Keeps P
  resize : ∀ width height, (resize width height).Keeps P

/-- Whatever mutations lead to is stable. -/
theorem stable_mutated (origin : Graph) : Stable (Mutated origin) where
  step hg hmutation _ := hg.step hmutation
  addNode := keeps_addNode
  removeNode := keeps_removeNode
  completeEdges := keeps_completeEdges
  completeAllEdges := keeps_completeAllEdges
  setDiagonal := keeps_setDiagonal
  resize := keeps_resize

namespace Stable

variable {P : Graph → Prop} {g : Graph}

theorem redraw (h : Stable P) (hg : P g) : P g.redraw :=
  h.step hg (.settings g true g.outcome g.defaultBidirectional g.physicsEnabled) (.of_nodes rfl rfl rfl)

theorem modifyNode (h : Stable P) (hg : P g) (slot : Nat) {f : Node → Node} (hf : SameNode f) :
    P (g.modifyNode slot f) :=
  h.step hg (.changeNode g slot hf) (.modifyNode g slot hf)

theorem modifyEdge (h : Stable P) (hg : P g) (id : EdgeId) {f : Edge → Edge} (hf : SameEdge f) :
    P (g.modifyEdge id f) :=
  h.redraw (h.step hg (.changeEdge g id hf) (.updateEdge g id _))

theorem addEdge (h : Stable P) (source target : Nat) (bidirectional : Bool) (data : Bag) :
    (addEdge source target bidirectional data).Keeps P := by
  intro g hg
  rcases after_addEdge g source target bidirectional data with hafter | ⟨hsource, htarget, hafter⟩
  · rwa [hafter]
  · rw [hafter]
    exact h.step hg (.addEdge g bidirectional data hsource htarget) (.of_nodes rfl rfl rfl)

theorem removeEdge (h : Stable P) (id : EdgeId) : (removeEdge id).Keeps P := by
  intro g hg
  have hsame := SamePlan.updateEdge g id fun _ => none
  cases hedge : g.edge? id with
  | none => simpa [Edit.after, Graph.removeEdge, hedge] using hg
  | some e =>
      simpa [Edit.after, Graph.removeEdge, hedge] using
        h.step hg (.removeEdge g id) ⟨hsame.grid, hsame.slots, hsame.places⟩

theorem reorientEdge (h : Stable P) (id : EdgeId) : (reorientEdge id).Keeps P := by
  intro g hg
  have hsame := SamePlan.updateEdge g id fun e => some { e with source := e.target, target := e.source }
  cases hedge : g.edge? id with
  | none => simpa [Edit.after, Graph.reorientEdge, hedge] using hg
  | some e =>
      simpa [Edit.after, Graph.reorientEdge, hedge] using
        h.step hg (.reorientEdge g id) ⟨hsame.grid, hsame.slots, hsame.places⟩

theorem setStart (h : Stable P) (slot : Option Nat) : (setStart slot).Keeps P := by
  intro g hg
  rcases after_setStart g slot with hafter | ⟨hlive, hafter⟩
  · rwa [hafter]
  · rw [hafter]
    exact h.step hg (.setStart g slot hlive) (.of_nodes rfl rfl rfl)

theorem setGoal (h : Stable P) (slot : Option Nat) : (setGoal slot).Keeps P := by
  intro g hg
  rcases after_setGoal g slot with hafter | ⟨hlive, hafter⟩
  · rwa [hafter]
  · rw [hafter]
    exact h.step hg (.setGoal g slot hlive) (.of_nodes rfl rfl rfl)

theorem setNodeState (h : Stable P) (slot : Nat) (state : String) : (setNodeState slot state).Keeps P := by
  intro g hg
  cases hnode : g.node? slot with
  | none => simpa [Edit.after, Graph.setNodeState, hnode] using h.redraw hg
  | some n =>
      have hchanged := h.modifyNode hg slot (f := fun n => { n with data := n.data.set "state" (.text state) })
        fun n => ⟨rfl, rfl, rfl, rfl⟩
      simpa [Edit.after, Graph.setNodeState, hnode] using hchanged

theorem applyToGraph (h : Stable P) (name : String) (value : Json) : (applyToGraph name value).Keeps P := by
  unfold Graph.applyToGraph
  split
  · exact .bind (.require _ _) fun id => .bind (.check _) fun slot => .bind (h.setStart _) fun _ => .pure _
  · exact .bind (.require _ _) fun id => .bind (.check _) fun slot => .bind (h.setGoal _) fun _ => .pure _
  · refine .bind (.require _ _) fun on => .bind (.modify fun g hg => ?_) fun _ => .pure _
    exact h.step hg (.settings g g.needsRedraw g.outcome g.defaultBidirectional on) (.of_nodes rfl rfl rfl)
  · refine .bind (.require _ _) fun on => .bind (.modify fun g hg => ?_) fun _ => .pure _
    exact h.step hg (.settings g g.needsRedraw g.outcome on g.physicsEnabled) (.of_nodes rfl rfl rfl)
  · exact .bind (.check _) fun spec => .bind (.require _ _) fun n => .bind (h.resize _ _) fun _ => .pure _
  · exact .bind (.check _) fun spec => .bind (.require _ _) fun n => .bind (h.resize _ _) fun _ => .pure _
  · exact .bind (.require _ _) fun v => .bind (h.setDiagonal _) fun _ => .pure _
  · exact .pure _

theorem applyToNode (h : Stable P) (slot : Nat) (name : String) (value : Json) :
    (applyToNode slot name value).Keeps P := by
  have hkey : (do
      let g ← get
      set (g.modifyNode slot fun n => { n with data := n.data.set name value })
      let _ ← Edit.require (g.node? slot) (.slotEmpty slot)
      return true : Edit Graph Bool).Keeps P := by
    refine .bind_get fun g hg => .bind (.set ?_) fun _ => .bind (.require _ _) fun _ => .pure _
    exact h.modifyNode hg slot fun n => ⟨rfl, rfl, rfl, rfl⟩
  unfold Graph.applyToNode
  split
  · exact .bind (h.setStart _) fun _ => .pure _
  · exact .bind (h.setGoal _) fun _ => .pure _
  · exact hkey
  · exact hkey
  · exact hkey
  · exact hkey
  · exact hkey
  · exact .pure _

theorem applyToEdge (h : Stable P) (id : EdgeId) (name : String) (value : Json) :
    (applyToEdge id name value).Keeps P := by
  have hchange : ∀ {g : Graph} {f : Edge → Edge}, P g → SameEdge f →
      (do set (g.modifyEdge id f); return true : Edit Graph Bool).Keeps P :=
    fun hg hf => .bind (.set (h.modifyEdge hg id hf)) fun _ => .pure _
  unfold Graph.applyToEdge
  refine .bind (.modify fun g hg => h.redraw hg) fun _ => .bind_get fun g hg => .bind (.require _ _) fun e => ?_
  split
  · exact .bind (.require _ _) fun w => hchange hg fun _ => ⟨rfl, rfl, rfl⟩
  · exact .bind (.require _ _) fun on => hchange hg fun _ => ⟨rfl, rfl, rfl⟩
  · exact hchange hg fun _ => ⟨rfl, rfl, rfl⟩
  · exact hchange hg fun _ => ⟨rfl, rfl, rfl⟩
  · exact hchange hg fun _ => ⟨rfl, rfl, rfl⟩
  · exact .pure _

theorem setProperty (h : Stable P) (target : Target) (name : String) (value : Json) :
    (setProperty target name value).Keeps P := by
  unfold Graph.setProperty
  refine .bind (.check _) fun properties => .bind (.check _) fun found => ?_
  split
  · exact .pure _
  · -- Whatever was changed, a redraw is asked for at the end.
    have hend : ∀ applied : Bool, (do
        if applied then modify Graph.redraw
        return applied : Edit Graph Bool).Keeps P := by
      intro applied
      split
      · exact .bind (.modify fun g hg => h.redraw hg) fun _ => .pure _
      · exact .bind (.pure _) fun _ => .pure _
    cases target with
    | graph => exact .bind (h.applyToGraph name value) hend
    | node id => exact .bind (.check _) fun slot => .bind (h.applyToNode slot name value) hend
    | edge id => exact .bind (h.applyToEdge id name value) hend

/-- **Every operation keeps what is stable**, whether it fails or not. -/
theorem edit (h : Stable P) (op : Operation) : op.edit.Keeps P := by
  cases op with
  | addNode id data => exact .bind (h.addNode id data) fun _ => .pure _
  | removeNode slot => exact .bind (h.removeNode slot) fun _ => .pure _
  | addEdge source target bidirectional data =>
      exact .bind (h.addEdge source target bidirectional data) fun _ => .pure _
  | removeEdge id => exact .bind (h.removeEdge id) fun _ => .pure _
  | reorientEdge id => exact h.reorientEdge id
  | setNode slot data style => exact .modify fun g hg => h.modifyNode hg slot fun n => ⟨rfl, rfl, rfl, rfl⟩
  | setEdge id bidirectional data style => exact .modify fun g hg => h.modifyEdge hg id fun e => ⟨rfl, rfl, rfl⟩
  | setStart slot => exact h.setStart slot
  | setGoal slot => exact h.setGoal slot
  | setOutcome outcome =>
      exact .modify fun g hg =>
        h.step hg (.settings g true outcome g.defaultBidirectional g.physicsEnabled) (.of_nodes rfl rfl rfl)
  | setNodeState slot state => exact h.setNodeState slot state
  | resetSearch => exact .modify fun g hg => h.step hg (.resetSearch g) (.resetSearch g)
  | setProperty target name value => exact .bind (h.setProperty target name value) fun _ => .pure _
  | setDefaults defaultBidirectional physicsEnabled =>
      exact .modify fun g hg =>
        h.step hg (.settings g g.needsRedraw g.outcome defaultBidirectional physicsEnabled) (.of_nodes rfl rfl rfl)
  | completeEdges slot => exact h.completeEdges slot
  | completeAllEdges => exact h.completeAllEdges
  | setDiagonal diagonal => exact h.setDiagonal diagonal
  | resize width height => exact h.resize width height
  | takeEdgeId => exact .modify fun g hg => h.step hg (.takeEdgeId g) (.of_nodes rfl rfl rfl)
  | reindex => exact .modify fun g hg => h.step hg (.reindex g) (.of_nodes rfl rfl rfl)
  | unindex => exact .modify fun g hg => h.step hg (.unindex g) (.of_nodes rfl rfl rfl)
  | redraw => exact .modify fun g hg => h.redraw hg
  | drawn =>
      exact .modify fun g hg =>
        h.step hg (.settings g false g.outcome g.defaultBidirectional g.physicsEnabled) (.of_nodes rfl rfl rfl)

end Stable

/-- **Every operation is a run of mutations**, whether it fails or not. -/
theorem Operation.keeps_edit (origin : Graph) (op : Operation) : op.edit.Keeps (Mutated origin) :=
  (stable_mutated origin).edit op

/-- What any sequence of operations leaves behind, mutations lead to. -/
theorem mutated_runAll {origin g : Graph} (h : Mutated origin g) (ops : List Operation) :
    Mutated origin (runAll ops g) := by
  induction ops generalizing g with
  | nil => exact h
  | cons op rest ih => exact ih (op.keeps_edit origin g h)

/-- The grid of a size is made by mutations of the graph without cells. -/
theorem mutated_ofGrid {width height : Nat} {diagonal : Diagonal} {g : Graph}
    (h : ofGrid width height diagonal = .ok g) :
    Mutated { grid := some { width, height, diagonal } } g := by
  have hbuild : (do
      (cells width height).forM insertCell
      completeAllEdges : Edit Graph Unit).Keeps (Mutated { grid := some { width, height, diagonal } }) :=
    .bind (.forM fun cell _ => keeps_insertCell cell) fun _ => keeps_completeAllEdges
  have hafter := hbuild _ ⟨Arena.empty _, .refl⟩
  unfold ofGrid at h
  dsimp only at h
  split at h
  · exact absurd h (by simp)
  · rename_i hresult
    cases h
    rw [Edit.after_ok hresult] at hafter
    exact hafter

end SearchLab.Graph
