import SearchLab.Proofs.Graph.Cells
import SearchLab.Replay.Change

/-!
# The upkeep of a grid

`Upkeep` lists what is done with a grid while it is edited and searched: new sizes and costs of diagonals, edges
completed around one cell or around all, cells opened and blocked and that taken back, bags of nodes and edges replaced,
edges turned around. None of it lays two edges between the same cells, and none leaves a gap.

* `Upkeep.lattice` — one piece of upkeep leaves a lattice behind;
* `upkeep_keeps_lattice` — any sequence of them does, and what sets the cost of diagonals sets it everywhere.
-/

namespace SearchLab.Graph

variable {Fit : Contact → Edge → Prop} {spec : GridSpec} {g : Graph}

/-! ## Completing the edges around one cell -/

/-- An edge joins two slots. -/
def Joined (a b : Nat) (g : Graph) : Prop := ∃ p e, g.edgeAt? p = some e ∧ e.Joins a b

/-- Changing an edge other than in its ends parts no slots. -/
theorem Joined.updateEdge {a b : Nat} (h : Joined a b g) (id : EdgeId) {f : Edge → Edge} (hf : SameEdge f) :
    Joined a b (g.updateEdge id fun e => some (f e)) := by
  obtain ⟨p, e, he, hjoins⟩ := h
  obtain ⟨_, hsource, htarget⟩ := hf e
  by_cases hplace : place? id = some p
  · refine ⟨p, f e, by rw [edgeAt?_changeEdge, if_pos hplace, he, Option.map_some], ?_⟩
    rwa [Edge.Joins, hsource, htarget]
  · exact ⟨p, e, by rw [edgeAt?_changeEdge, if_neg hplace, he], hjoins⟩

/-- Linking two cells parts no slots. -/
theorem Joined.linkCells {a b : Nat} (h : Joined a b g) (source target : Nat) :
    Joined a b (g.linkCells source target).2 := by
  obtain ⟨p, e, he, hjoins⟩ := h
  have hp : p ≠ g.edges.size := by
    rintro rfl
    simp [edgeAt?] at he
  have hkept : (g.linkCells source target).2.edgeAt? p = some e := by
    have hlinked := g.edgeAt?_withEdge source target true [] p
    rw [if_neg hp, he] at hlinked
    exact hlinked
  exact ⟨p, e, hkept, hjoins⟩

/-- Completing edges parts no slots. -/
theorem completing_joined (a b : Nat) : Completing (Joined a b) where
  reindex h := h
  redraw h := h
  link source target h := h.linkCells source target
  weigh id _ h := h.updateEdge id fun _ => ⟨rfl, rfl, rfl⟩

/-- Completing the edges around a slot leaves a lattice behind; where there is no cell it is refused. -/
theorem Lattice.completeEdges (h : Lattice Fit spec g) (hfit : Completable Fit spec.diagonal) (slot : Nat) :
    Lattice Fit spec ((Graph.completeEdges slot).after g) := by
  by_cases hslot : g.Live slot
  · obtain ⟨g', hedges, hleads, _⟩ := completes_completeEdges hfit h.toFilled hslot
    rw [Edit.after_ok hedges]
    refine ⟨h.toFilled.of_completes hleads, fun {a b c} hcontact => ?_⟩
    have hjoined := (completing_joined a b).edges slot g (h.joined (by rwa [← hleads.contact?]))
    rwa [Edit.after_ok hedges] at hjoined
  · have hnone : g.node? slot = none := by simpa [Live] using hslot
    have hrefused : Graph.completeEdges slot g = .error (.slotEmpty slot) g := by
      simp [Graph.completeEdges, gridSpec, h.grid, hnone]
    rwa [Edit.after_error hrefused]

/-! ## Pieces of upkeep -/

/-- What is done with a grid while it is edited and searched. -/
inductive Upkeep where
  | resize (width height : Nat)
  | setDiagonal (diagonal : Diagonal)
  | completeEdges (slot : Nat)
  | completeAllEdges
  /-- Opens a blocked cell and blocks an open one. -/
  | toggle (id : String)
  /-- Takes such a toggle back, with what it knows of the data before. -/
  | untoggle (id : String) (previous : Option (Option Json))
  /-- Replaces the bags of a node. -/
  | setNode (slot : Nat) (data style : Bag)
  /-- Replaces the flag and the bags of a stored edge. -/
  | setEdge (id : EdgeId) (bidirectional : Bool) (data style : Bag)
  | reorientEdge (id : EdgeId)
  | setStart (slot : Option Nat)
  | setGoal (slot : Option Nat)
  /-- Brings the index up to date, as every look-up of edges does. -/
  | reindex

namespace Upkeep

/-- The edit that a piece of upkeep is. -/
def edit : Upkeep → Edit Graph Unit
  | resize width height => Graph.resize width height
  | setDiagonal diagonal => Graph.setDiagonal diagonal
  | completeEdges slot => Graph.completeEdges slot
  | completeAllEdges => Graph.completeAllEdges
  | toggle id => do
    let _ ← Change.flipNode id
    Change.refresh id
  | untoggle id previous => do
    Change.unflipNode id previous
    Change.refresh id
  | setNode slot data style => modify fun g => g.modifyNode slot fun n => { n with data, style }
  | setEdge id bidirectional data style =>
    modify fun g => g.modifyEdge id fun e => { e with bidirectional, data, style }
  | reorientEdge id => Graph.reorientEdge id
  | setStart slot => Graph.setStart slot
  | setGoal slot => Graph.setGoal slot
  | reindex => modify Graph.reindex

/-- What a piece of upkeep leaves behind, also when it is refused. -/
def run (op : Upkeep) (g : Graph) : Graph := op.edit.after g

/-- A new cost of diagonals is a finite number. -/
def Allowed : Upkeep → Prop
  | setDiagonal diagonal => diagonal.Finite
  | _ => True

end Upkeep

/-- What a sequence of pieces of upkeep leaves behind. -/
def keepUp (ops : List Upkeep) (g : Graph) : Graph := ops.foldl (fun g op => op.run g) g

section Toggles

variable (id : String) (previous : Option (Option Json)) (below : Layers)

/-- Doing the command that toggles a cell is a toggle of the top layer. -/
theorem after_apply_toggle (g : Graph) :
    (Change.apply.after (Change.toggle id previous, g :: below)).2 = (Upkeep.toggle id).run g :: below := by
  unfold Upkeep.run Upkeep.edit
  cases hflip : Change.flipNode id g with
  | error e g' =>
      rw [Edit.after_error (Edit.bind_error hflip)]
      simp [Edit.after, Change.apply, onTop, hflip]
  | ok old g' =>
      have hrest : (do let _ ← Change.flipNode id; Change.refresh id : Edit Graph Unit) g = Change.refresh id g' :=
        Edit.bind_ok hflip
      cases hrefresh : Change.refresh id g' with
      | error e g'' =>
          rw [Edit.after_error (hrest.trans hrefresh)]
          simp [Edit.after, Change.apply, onTop, hflip, Change.keeping, hrefresh]
      | ok _ g'' =>
          rw [Edit.after_ok (hrest.trans hrefresh)]
          simp [Edit.after, Change.apply, onTop, hflip, Change.keeping, hrefresh]

/-- Taking the command back takes the toggle of the top layer back. -/
theorem after_revert_toggle (g : Graph) :
    (Change.revert.after (Change.toggle id previous, g :: below)).2 = (Upkeep.untoggle id previous).run g :: below := by
  unfold Upkeep.run Upkeep.edit
  cases hflip : Change.unflipNode id previous g with
  | error e g' =>
      rw [Edit.after_error (Edit.bind_error hflip)]
      simp [Edit.after, Change.revert, onTop, hflip]
  | ok _ g' =>
      have hrest : (do Change.unflipNode id previous; Change.refresh id : Edit Graph Unit) g = Change.refresh id g' :=
        Edit.bind_ok hflip
      cases hrefresh : Change.refresh id g' with
      | error e g'' =>
          rw [Edit.after_error (hrest.trans hrefresh)]
          simp [Edit.after, Change.revert, onTop, hflip, Change.keeping, hrefresh]
      | ok _ g'' =>
          rw [Edit.after_ok (hrest.trans hrefresh)]
          simp [Edit.after, Change.revert, onTop, hflip, Change.keeping, hrefresh]

end Toggles

theorem keeps_lattice_flipNode (id : String) : (Change.flipNode id).Keeps (Lattice Fit spec) := by
  refine .bind (.check _) fun slot => .bind_get fun g hg => .bind (.require _ _) fun n => .bind (.set ?_) fun _ => .pure _
  exact hg.modifyNode slot fun _ => ⟨rfl, rfl, rfl, rfl⟩

theorem keeps_lattice_unflipNode (id : String) (previous : Option (Option Json)) :
    (Change.unflipNode id previous).Keeps (Lattice Fit spec) := by
  refine .bind (.check _) fun slot => .modify fun g hg => hg.modifyNode slot fun n => ?_
  match previous with
  | none => exact ⟨rfl, rfl, rfl, rfl⟩
  | some none => exact ⟨rfl, rfl, rfl, rfl⟩
  | some (some _) => exact ⟨rfl, rfl, rfl, rfl⟩

theorem keeps_lattice_refresh (hfit : Completable Fit spec.diagonal) (id : String) :
    (Change.refresh id).Keeps (Lattice Fit spec) := by
  refine .bind (.check _) fun slot => .bind_get fun g _ => ?_
  split
  · exact fun g hg => hg.completeEdges hfit slot
  · exact .pure _

/-- Nothing that is asked of edges keeps one from being completed. -/
theorem completable_unchecked (d : Diagonal) : Completable Unchecked d where
  straight _ _ _ := trivial
  across _ _ _ := trivial
  reweighed _ _ := trivial

/-- **A piece of upkeep leaves a lattice behind**, of another size or with another cost of diagonals where that was
asked for. -/
theorem Upkeep.lattice (op : Upkeep) (h : Lattice Unchecked spec g) :
    ∃ spec', Lattice Unchecked spec' (op.run g) ∧ (op.Allowed → spec.diagonal.Finite → spec'.diagonal.Finite) := by
  have hfit := completable_unchecked spec.diagonal
  have hsame : op.Allowed → spec.diagonal.Finite → spec.diagonal.Finite := fun _ hspec => hspec
  cases op with
  | resize width height =>
      rcases h.resize width height hfit with hrefused | ⟨g', hsized, hlattice, _⟩
      · have hrun : (resize width height).run g = g := Edit.after_error hrefused
        rw [hrun]
        exact ⟨spec, h, hsame⟩
      · have hrun : (resize width height).run g = g' := Edit.after_ok hsized
        rw [hrun]
        exact ⟨_, hlattice, hsame⟩
  | setDiagonal d =>
      obtain ⟨g', hset, _, hlattice, _⟩ := h.setDiagonal (completable_unchecked d)
      have hrun : (setDiagonal d).run g = g' := Edit.after_ok hset
      rw [hrun]
      exact ⟨_, hlattice, fun hallowed _ => hallowed⟩
  | completeEdges slot => exact ⟨spec, h.completeEdges hfit slot, hsame⟩
  | completeAllEdges =>
      obtain ⟨g', hedges, _, hlattice, _⟩ := h.toFilled.completeAllEdges hfit
      have hrun : completeAllEdges.run g = g' := Edit.after_ok hedges
      rw [hrun]
      exact ⟨spec, hlattice, hsame⟩
  | toggle id =>
      have hkeeps : (toggle id).edit.Keeps (Lattice Unchecked spec) :=
        .bind (keeps_lattice_flipNode id) fun _ => keeps_lattice_refresh hfit id
      exact ⟨spec, hkeeps g h, hsame⟩
  | untoggle id previous =>
      have hkeeps : (untoggle id previous).edit.Keeps (Lattice Unchecked spec) :=
        .bind (keeps_lattice_unflipNode id previous) fun _ => keeps_lattice_refresh hfit id
      exact ⟨spec, hkeeps g h, hsame⟩
  | setNode slot data style => exact ⟨spec, h.modifyNode slot fun _ => ⟨rfl, rfl, rfl, rfl⟩, hsame⟩
  | setEdge id bidirectional data style =>
      exact ⟨spec, h.modifyEdge id (fun _ => ⟨rfl, rfl, rfl⟩) fun _ => trivial, hsame⟩
  | reorientEdge id => exact ⟨spec, h.reorientEdge id fun _ => trivial, hsame⟩
  | setStart slot => exact ⟨spec, h.setStart slot, hsame⟩
  | setGoal slot => exact ⟨spec, h.setGoal slot, hsame⟩
  | reindex => exact ⟨spec, h.of_same_edges (.reindex g) rfl rfl rfl, hsame⟩

/-- Whatever is done for its upkeep, a grid stays a lattice, and its diagonals cost a finite number as long as no other
cost is asked for. -/
theorem exists_lattice_keepUp (ops : List Upkeep) (h : Lattice Unchecked spec g) :
    ∃ spec', Lattice Unchecked spec' (keepUp ops g) ∧
      ((∀ op ∈ ops, op.Allowed) → spec.diagonal.Finite → spec'.diagonal.Finite) := by
  induction ops generalizing spec g with
  | nil => exact ⟨spec, h, fun _ => id⟩
  | cons op rest ih =>
      obtain ⟨middle, hmiddle, hfinite⟩ := op.lattice h
      obtain ⟨spec', hlattice, hlast⟩ := ih hmiddle
      refine ⟨spec', hlattice, fun hops hspec => ?_⟩
      obtain ⟨hop, hrest⟩ := List.forall_mem_cons.mp hops
      exact hlast hrest (hfinite hop hspec)

/-- With finite costs of diagonals, a grid stays a lattice whose diagonals cost a finite number. -/
theorem lattice_keepUp {ops : List Upkeep} (hops : ∀ op ∈ ops, op.Allowed) (h : Lattice Unchecked spec g)
    (hspec : spec.diagonal.Finite) :
    ∃ spec', Lattice Unchecked spec' (keepUp ops g) ∧ spec'.diagonal.Finite := by
  obtain ⟨spec', hlattice, hfinite⟩ := exists_lattice_keepUp ops h
  exact ⟨spec', hlattice, hfinite hops hspec⟩

/-! ## One node for each cell, one edge for each pair -/

/-- The nodes of a graph are just one for each cell of a size, with its id, and its edges just one for every two nodes
that touch. -/
structure OneEach (width height : Nat) (g : Graph) : Prop where
  node : ∀ n ∈ g.nodeList, n.x < width ∧ n.y < height ∧ n.id = cellId n.x n.y
  nodes : g.nodeList.Nodup
  cell : ∀ x y, x < width → y < height → ∃! n, n ∈ g.nodeList ∧ n.x = x ∧ n.y = y
  edge : ∀ e ∈ g.edgeList, (g.contact? e.source e.target).isSome
  edges : g.edgeList.Nodup
  pair : ∀ a b c, g.contact? a b = some c → ∃! e, e ∈ g.edgeList ∧ e.Joins a b

/-- The edges across corners cost a number, and are forbidden just where it is negative. -/
def Priced (cost : Float) (g : Graph) : Prop :=
  ∀ e ∈ g.edgeList, g.contact? e.source e.target = some .diagonal →
    e.data.get? "w" = some (.number (.float cost)) ∧ e.data.get? "forbidden" = some (.bool (decide (cost < 0.0)))

theorem Lattice.oneEach (h : Lattice Fit spec g) : OneEach spec.width spec.height g where
  node n hn := by
    obtain ⟨s, hs⟩ := mem_nodeList.mp hn
    have hplace : g.placeOf? s = some (n.x, n.y) := placeOf?_of_node? hs
    exact ⟨(h.inside hplace).1, (h.inside hplace).2, h.wired.named hs⟩
  nodes := h.wired.arena.nodup_ids.of_map Node.id
  cell x y hx hy := by
    obtain ⟨n, hn⟩ := Option.isSome_iff_exists.mp (h.nodeAt?_isSome.mpr ⟨hx, hy⟩)
    refine ⟨n, h.mem_of_nodeAt? hn, ?_⟩
    rintro m ⟨hm, rfl, rfl⟩
    exact Option.some.inj ((h.nodeAt?_of_mem hm).symm.trans hn)
  edge e he := by
    obtain ⟨p, hp⟩ := mem_edgeList.mp he
    obtain ⟨c, hcontact, _⟩ := h.wired.fits hp
    rw [hcontact, Option.isSome_some]
  edges := h.wired.arena.nodup_edgeIds.of_map Edge.id
  pair a b c hcontact := by
    obtain ⟨p, e, he, hjoins⟩ := h.joined hcontact
    refine ⟨e, ⟨mem_edgeList.mpr ⟨p, he⟩, hjoins⟩, ?_⟩
    rintro e' ⟨hmem, hjoins'⟩
    obtain ⟨p', he'⟩ := mem_edgeList.mp hmem
    obtain rfl := h.wired.place_eq_of_joins he he' hjoins hjoins'
    exact Option.some.inj (he'.symm.trans he)

/-- A finite cost that was set is what the edges across corners cost. -/
theorem Weighed.priced {d : Diagonal} (h : Weighed d g) (hd : d.Finite) : Priced d.value g := by
  intro e he hcontact
  obtain ⟨p, hp⟩ := mem_edgeList.mp he
  have hvalue : Json.ofFloat d.value = .number (.float d.value) := by
    rw [Json.ofFloat, hd.1, hd.2]
    rfl
  rw [← h hp hcontact, ← hvalue]
  unfold weighed
  constructor
  · rw [Bag.get?_set, if_neg (by decide), Bag.get?_set, if_pos rfl]
  · rw [Bag.get?_set, if_pos rfl]

/-- **A grid stays a lattice.** A grid of any size whose diagonals cost a finite number can be made, and whatever is
done for its upkeep, refused or not: it has just one node for each cell of its size, with the id of the cell, and just
one edge between every two cells that touch, and no others. Where the grid is new, and where a cost of diagonals or a
size has just been set, the edges across corners have the cost of diagonals and are forbidden just where it is negative;
setting a cost never fails. -/
theorem upkeep_keeps_lattice (width height : Nat) {d : Diagonal} (hd : d.Finite) {ops : List Upkeep}
    (hops : ∀ op ∈ ops, op.Allowed) :
    ∃ origin, ofGrid width height d = .ok origin ∧ origin.grid = some ⟨width, height, d⟩ ∧ Priced d.value origin ∧
      ∃ spec, (keepUp ops origin).grid = some spec ∧ OneEach spec.width spec.height (keepUp ops origin) ∧
        (∀ d', d'.Finite → ∃ g, setDiagonal d' (keepUp ops origin) = .ok () g ∧
          g.grid = some { spec with diagonal := d' } ∧ Priced d'.value g) ∧
        ∀ width' height' g, resize width' height' (keepUp ops origin) = .ok () g →
          g.grid = some { spec with width := width', height := height' } ∧ Priced spec.diagonal.value g := by
  obtain ⟨origin, hmade, hnew, _, _, _, hweighed⟩ := lattice_ofGrid width height (completable_unchecked d)
  obtain ⟨spec, hlattice, hfinite⟩ := lattice_keepUp hops hnew hd
  refine ⟨origin, hmade, hnew.grid, hweighed.priced hd, spec, hlattice.grid, hlattice.oneEach, ?_, ?_⟩
  · intro d' hd'
    obtain ⟨g, hset, _, hafter, hweighed', -⟩ := hlattice.setDiagonal (completable_unchecked d')
    exact ⟨g, hset, hafter.grid, hweighed'.priced hd'⟩
  · intro width' height' g hsized
    rcases hlattice.resize width' height' (completable_unchecked spec.diagonal) with
      hrefused | ⟨g', hsized', hafter, hweighed'⟩
    · rw [hrefused] at hsized
      exact absurd hsized (by simp)
    · rw [hsized'] at hsized
      cases hsized
      exact ⟨hafter.grid, hweighed'.priced hfinite⟩

/-- A grid of three by two cells that loses a column and gets it back, with a cell blocked before and its diagonals
closed. -/
theorem upkeep_keeps_lattice_sample :
    ∃ origin, ofGrid 3 2 .euclidean = .ok origin ∧ ∃ spec,
      (keepUp [.toggle "1_0", .resize 2 2, .setDiagonal .disabled, .reorientEdge ⟨1⟩, .resize 3 2] origin).grid =
        some spec ∧
      OneEach spec.width spec.height
        (keepUp [.toggle "1_0", .resize 2 2, .setDiagonal .disabled, .reorientEdge ⟨1⟩, .resize 3 2] origin) := by
  have hops : ∀ op ∈ [Upkeep.toggle "1_0", .resize 2 2, .setDiagonal .disabled, .reorientEdge ⟨1⟩, .resize 3 2],
      op.Allowed := by
    intro op hop
    simp only [List.mem_cons, List.not_mem_nil, or_false] at hop
    rcases hop with rfl | rfl | rfl | rfl | rfl
    · trivial
    · trivial
    · exact ⟨by decide, by decide⟩
    · trivial
    · trivial
  obtain ⟨origin, hmade, _, _, spec, hgrid, hone, _⟩ :=
    upkeep_keeps_lattice 3 2 (d := .euclidean) ⟨by decide, by decide⟩ hops
  exact ⟨origin, hmade, spec, hgrid, hone⟩

end SearchLab.Graph
