import SearchLab.Notation.Reader
import SearchLab.Proofs.Notation.GridWriter
import SearchLab.Proofs.Notation.Implied
import SearchLab.Proofs.Notation.Reread

/-!
# Grids as text

Reading the document of a grid starts with a new lattice of the same size. The rows open and block its cells, the cost
of diagonals is set, and the two ends; then the nodes and the edges that have a line get what was written of them. Those
that have none stay as they are: `FreshCell` and `FreshEdge` say how, and that it is all there was to say of them.

* `content` — what a document says of a grid;
* `read_nodes`, `read_edges` — what the lines of the nodes and of the edges lead to;
* `read_of_lattice` — the document of a lattice is read, and what is read of it;
* `read_write_adjusted` — a grid is read back from its document, whatever adjustments were made of it.
-/

namespace SearchLab.Notation.Grid

open SearchLab.Graph

/-! ## What a document says of a grid -/

/-- What a document says of a cell: whether it lets one pass, its other data, and its style. -/
def cellEntry (n : Node) : Bool × Bag × Bag := (n.isTraversable, lasting n.data ["traversable"], n.style)

/-- What a document says of an edge in one of its directions: what it costs, whether it may be walked, its flag, its
style, and its other data. -/
def viewEntry (g : Graph) (v : EdgeView) : Float × Bool × Bool × Bag × Bag :=
  (v.edge.weight.toFloat, g.isTraversable v, v.edge.bidirectional, v.edge.style, lasting v.edge.data ["w", "forbidden"])

/-- What a document says of a grid. -/
structure Content where
  size : Option (Nat × Nat × Float)
  cells : Nat → Nat → Option (Bool × Bag × Bag)
  start : Option String
  goal : Option String
  edges : Nat × Nat → Nat × Nat → List (Float × Bool × Bool × Bag × Bag)

/-- The edges from one cell to another, in this direction. -/
def viewsBetween (g : Graph) (p q : Nat × Nat) : List EdgeView :=
  match g.slot? (cellId p.1 p.2), g.slot? (cellId q.1 q.2) with
  | some a, some b => g.between a b true
  | _, _ => []

/-- The size of a grid with the cost of diagonals, its cells, the ids of its start and goal, and its edges from each
cell to each other. -/
def content (g : Graph) : Content where
  size := g.grid.map fun spec => (spec.width, spec.height, spec.diagonal.value)
  cells x y := (g.nodeAt? x y).map cellEntry
  start := g.start.bind g.idOf?
  goal := g.goal.bind g.idOf?
  edges p q := (viewsBetween g p q).map (viewEntry g)

/-- A grid that can be written: no data have a style of their own, and what is written of nodes, edges and the cost of
diagonals reads back. -/
structure Writable (g : Graph) (spec : GridSpec) : Prop where
  nodes : ∀ n ∈ g.nodeList,
    n.data.get? "style" = none ∧ (withStyle (lasting n.data ["traversable"]) n.style).ReadsBack
  edges : ∀ e ∈ g.edgeList, e.data.get? "style" = none ∧ ∀ c, g.contact? e.source e.target = some c →
    (withStyle (edgeData c spec.diagonal e.data) e.style).ReadsBack
  diagonal : Decimal.number? (Decimal.write Decimal.plainLayout spec.diagonal.value) = some spec.diagonal.value

/-! ## The lattice that reading starts with -/

/-- An edge has what the lattice implies, and nothing else. -/
structure Implied (d : Diagonal) (c : Contact) (e : Edge) : Prop where
  flag : e.bidirectional = true
  style : e.style = []
  data : e.data = template d c

/-- Nothing but whether it lets one pass was said of a node. -/
def FreshCell (n : Node) (r : Graph) : Prop :=
  ∃ m, r.nodeAt? n.x n.y = some m ∧ m.data = [("traversable", .bool n.isTraversable)] ∧ m.style = []

/-- What is read of a cell that was written. -/
def cellCopy (n : Node) : Bool × Bag × Bag := (n.isTraversable, reread (lasting n.data ["traversable"]) n.style)

/-- What is written of a node was read for it. -/
def RereadCell (n : Node) (r : Graph) : Prop := (r.nodeAt? n.x n.y).map cellEntry = some (cellCopy n)

/-- All that a document says of a node was said of it. -/
def CopiedCell (n : Node) (r : Graph) : Prop := (r.nodeAt? n.x n.y).map cellEntry = some (cellEntry n)

/-- Data without a style of their own are read as they were. -/
theorem RereadCell.copied {n : Node} {r : Graph} (h : RereadCell n r) (hplain : n.data.get? "style" = none) :
    CopiedCell n r := by
  unfold RereadCell cellCopy at h
  rw [reread_of_plain n.style (get?_lasting_eq_none ["traversable"] hplain)] at h
  exact h

section Start

variable {spec spec' : GridSpec} {g r : Graph}

/-- An edge has what some cost of diagonals implies. -/
def Blank (c : Contact) (e : Edge) : Prop := ∃ d, Implied d c e

theorem completable_blank (d : Diagonal) : Completable Blank d where
  straight _ _ _ := ⟨d, rfl, rfl, rfl⟩
  across _ _ _ := ⟨d, rfl, rfl, rfl⟩
  reweighed e h := by
    obtain ⟨d', hflag, hstyle, hdata⟩ := h
    refine ⟨d, hflag, hstyle, ?_⟩
    dsimp only
    rw [hdata]
    exact weighed_weighed d d' []

/-- The rows of a grid are read into a new lattice of its size. -/
theorem read_rows {Fit : Contact → Edge → Prop} (hg : Lattice Fit spec g) (hwidth : 1 ≤ spec.width) (headerLine : Nat)
    {rows : List Line}
    (hrows : (rows.take spec.height).map Line.text = (List.range spec.height).map fun y =>
      (" ".intercalate (rowWords ((List.range spec.width).map fun x => isOpenAt g x y))).toList) :
    ∃ new r, ofGrid spec.width spec.height .disabled = .ok new ∧
      applyRows headerLine spec.width spec.height rows new = .ok () r ∧
      Lattice Blank ⟨spec.width, spec.height, .disabled⟩ r ∧ r.start = none ∧ r.goal = none ∧
      ∀ n ∈ g.nodeList, FreshCell n r := by
  obtain ⟨new, hnew, hlattice, hclear, hstart, hgoal, _⟩ :=
    lattice_ofGrid spec.width spec.height (completable_blank .disabled)
  obtain ⟨r, happly, hmarks, hmarked⟩ := applyRows_spec hlattice headerLine hwidth hrows
  refine ⟨new, r, hnew, happly, hmarks.lattice hlattice, hmarks.start.trans hstart, hmarks.goal.trans hgoal, ?_⟩
  intro n hn
  have hfound := hg.nodeAt?_of_mem hn
  obtain ⟨hx, hy⟩ := hg.nodeAt?_isSome.mp (by rw [hfound]; rfl)
  obtain ⟨m, hm⟩ := Option.isSome_iff_exists.mp (hlattice.nodeAt?_isSome.mpr ⟨hx, hy⟩)
  obtain ⟨slot, -, hslot⟩ := Option.bind_eq_some_iff.mp hm
  obtain ⟨hdata, hstyle⟩ := hclear hslot
  have hopen : isOpenAt g n.x n.y = n.isTraversable := by
    unfold isOpenAt
    rw [hfound]
    rfl
  refine ⟨mark n.isTraversable m, ?_, ?_, hstyle⟩
  · rw [hmarks.nodeAt?_eq (hmarked n.x n.y hx hy), hm, hopen]
    rfl
  · unfold mark
    dsimp only
    rw [hdata]
    rfl

/-- The line of the cost of diagonals sets it on all edges across corners. -/
theorem read_diagonal (hr : Lattice Blank spec' r) {d : Diagonal} (hd : Spelt d) {line : Line}
    (hline : line.text = s!"DIAGONAL {d.display}".toList) :
    ∃ mode r', applyLine line r = .ok () r' ∧ mode.value = d.value ∧
      Lattice (Implied mode) { spec' with diagonal := mode } r' ∧
      SameCells { r with grid := some { spec' with diagonal := mode } } r' := by
  obtain ⟨mode, hmode, hvalue⟩ := hd.mode
  obtain ⟨r', hset, hcells, hlattice, hweighed, -⟩ := hr.setDiagonal (completable_blank mode)
  have hstatement := ofLine?_word line.number (by decide : ReadsAsCommand "DIAGONAL") hd.bare
  rw [← toList_diagonalLine, ← hline] at hstatement
  have hargument : Diagonal.ofText? (String.ofList d.display.toList) = some mode := by
    rw [String.ofList_toList]
    exact hmode
  have happly : applyLine line r = .ok () r' := by
    rw [applyLine_of_statement hstatement, ← hset]
    exact apply_diagonal rfl rfl hargument
  refine ⟨mode, r', happly, hvalue, hlattice.refit ?_, hcells⟩
  intro p e c he hc hblank
  obtain ⟨old, hflag, hstyle, hdata⟩ := hblank
  refine ⟨hflag, hstyle, ?_⟩
  cases c with
  | orthogonal => exact hdata
  | diagonal =>
      rw [← hweighed he hc, hdata]
      exact weighed_weighed mode old []

end Start

/-! ## The two ends -/

section Ends

variable {Fit Fit' : Contact → Edge → Prop} {spec spec' : GridSpec} {g r : Graph} {twin : Nat → Nat}

/-- The line of an end, if there is one, puts it at the twin of the node that it is at; `put` is what a statement with
such a line does. -/
theorem read_end (hr : Lattice Fit' spec' r) (hspec : Sized spec') (htwins : Twins g r twin) {word : String}
    (hword : ReadsAsCommand word) {put : Nat → Graph}
    (happly : ∀ {s x y cell}, s.command = word → s.args.map Arg.value = [toString x, toString y] →
      x ≤ Decimal.maxCount → y ≤ Decimal.maxCount → r.slot? (cellId x y) = some cell → r.Live cell →
      apply s r = .ok () (put cell))
    {slot : Option Nat} (hlive : ∀ s, slot = some s → g.Live s) {lines : List Line}
    (hlines : lines.map Line.text = (endLines g word slot).map String.toList) :
    (slot = none ∧ lines.forM applyLine r = .ok () r) ∨
      ∃ cell, r.Live cell ∧ lines.forM applyLine r = .ok () (put cell) ∧ r.placeOf? cell = slot.bind g.placeOf? := by
  cases slot with
  | none =>
      obtain rfl : lines = [] := by simpa [endLines] using hlines
      exact .inl ⟨rfl, rfl⟩
  | some place =>
      obtain ⟨n, hn⟩ := live_iff.mp (hlive place rfl)
      rw [endLines, Option.bind_some, hn] at hlines
      obtain ⟨line, rfl, hline⟩ := List.map_eq_singleton_iff.mp hlines
      obtain ⟨s, hstatement, hcommand, hvalues, -⟩ := ofLine?_written word (placeWords n) [] hline hword
        (by simp [placeWords]) (by simp) (by unfold Bag.ReadsBack; rfl)
      have hplace : g.placeOf? place = some (n.x, n.y) := placeOf?_of_node? hn
      have hcell := htwins place (n.x, n.y) hplace
      obtain ⟨m, hm, -⟩ := Option.map_eq_some_iff.mp hcell
      obtain ⟨hx, hy⟩ := hr.inside hcell
      have hwidth := hspec.width.2
      have hheight := hspec.height.2
      have hput := happly hcommand hvalues (by omega) (by omega) (hr.wired.slot?_cellId.mpr hcell)
        (live_iff.mpr ⟨m, hm⟩)
      rw [← applyLine_of_statement hstatement] at hput
      exact .inr ⟨twin place, live_iff.mpr ⟨m, hm⟩, Edit.bind_ok hput, hcell.trans hplace.symm⟩

/-- The line of the start, if there is one, sets it to the cell at the same place. -/
theorem read_start (hg : Lattice Fit spec g) (hr : Lattice Fit' spec' r) (hspec : Sized spec')
    (htwins : Twins g r twin) (hnone : r.start = none) {lines : List Line}
    (hlines : lines.map Line.text = (endLines g "START" g.start).map String.toList) :
    ∃ r', lines.forM applyLine r = .ok () r' ∧ Lattice Fit' spec' r' ∧ r'.goal = r.goal ∧
      (∀ s, r'.placeOf? s = r.placeOf? s) ∧ (∀ x y, r'.nodeAt? x y = r.nodeAt? x y) ∧
      r'.start.bind r'.placeOf? = g.start.bind g.placeOf? := by
  have hend := read_end hr hspec htwins (by decide)
    (fun hcommand hvalues hx hy hcell hlive =>
      (apply_start hvalues hx hy hcell hcommand).trans (setStart_of_live hlive))
    (fun _ => hg.wired.arena.start) hlines
  rcases hend with ⟨hstart, hread⟩ | ⟨cell, hlive, hread, hplace⟩
  · exact ⟨r, hread, hr, rfl, fun _ => rfl, fun _ _ => rfl, by rw [hnone, hstart]; rfl⟩
  · have hcell : ∀ s, some cell = some s → r.Live s := fun s hs => Option.some.inj hs ▸ hlive
    exact ⟨_, hread, hr.of_same_edges (.setStart r (some cell) hcell) rfl rfl rfl, rfl, fun _ => rfl, fun _ _ => rfl,
      hplace⟩

/-- The line of the goal, if there is one, sets it to the cell at the same place. -/
theorem read_goal (hg : Lattice Fit spec g) (hr : Lattice Fit' spec' r) (hspec : Sized spec')
    (htwins : Twins g r twin) (hnone : r.goal = none) {lines : List Line}
    (hlines : lines.map Line.text = (endLines g "GOAL" g.goal).map String.toList) :
    ∃ r', lines.forM applyLine r = .ok () r' ∧ Lattice Fit' spec' r' ∧ r'.start = r.start ∧
      (∀ s, r'.placeOf? s = r.placeOf? s) ∧ (∀ x y, r'.nodeAt? x y = r.nodeAt? x y) ∧
      r'.goal.bind r'.placeOf? = g.goal.bind g.placeOf? := by
  have hend := read_end hr hspec htwins (by decide)
    (fun hcommand hvalues hx hy hcell hlive =>
      (apply_goal hvalues hx hy hcell hcommand).trans (setGoal_of_live hlive))
    (fun _ => hg.wired.arena.goal) hlines
  rcases hend with ⟨hgoal, hread⟩ | ⟨cell, hlive, hread, hplace⟩
  · exact ⟨r, hread, hr, rfl, fun _ => rfl, fun _ _ => rfl, by rw [hnone, hgoal]; rfl⟩
  · have hcell : ∀ s, some cell = some s → r.Live s := fun s hs => Option.some.inj hs ▸ hlive
    exact ⟨_, hread, hr.of_same_edges (.setGoal r (some cell) hcell) rfl rfl rfl, rfl, fun _ => rfl, fun _ _ => rfl,
      hplace⟩

end Ends

/-! ## Nodes -/

section Nodes

variable {Fit Fit' : Contact → Edge → Prop} {spec spec' : GridSpec} {g r : Graph} {n : Node}

theorem bool?_of_get? {data : Bag} {key : String} {b : Bool} (h : data.get? key = some (.bool b)) :
    data.bool? key = some b := by
  unfold Bag.bool?
  rw [h]
  rfl

/-- A node lets one pass as its data say. -/
theorem isTraversable_of_get? {m : Node} {b : Bool} (h : m.data.get? "traversable" = some (.bool b)) :
    m.isTraversable = b := by
  unfold Node.isTraversable
  rw [bool?_of_get? h]
  cases b <;> rfl

/-- Of a node without a line there is no more to say. -/
theorem FreshCell.reread (h : FreshCell n r) (hnone : nodeLine? n = none) : RereadCell n r := by
  obtain ⟨m, hm, hdata, hstyle⟩ := h
  obtain ⟨hlasting, hplain⟩ := nodeLine?_eq_none hnone
  have hopen : m.isTraversable = n.isTraversable := isTraversable_of_get? (by rw [hdata]; rfl)
  have hrest : lasting m.data ["traversable"] = [] := by rw [hdata]; rfl
  unfold RereadCell
  rw [hm, Option.map_some, cellEntry, cellCopy, hopen, hrest, hstyle, hlasting, hplain]
  rfl

/-- The line of a node says the rest of it, and nothing of any other. -/
theorem apply_nodeLine (hr : Lattice Fit spec r) (hspec : Sized spec)
    (hback : (withStyle (lasting n.data ["traversable"]) n.style).ReadsBack)
    {t : String} (hshown : nodeLine? n = some t) {line : Line} (hline : line.text = t.toList) (hfresh : FreshCell n r) :
    ∃ r', applyLine line r = .ok () r' ∧ Lattice Fit spec r' ∧ SamePlaces r r' ∧ RereadCell n r' ∧
      ∀ x y, (x, y) ≠ (n.x, n.y) → r'.nodeAt? x y = r.nodeAt? x y := by
  obtain ⟨m, hm, hdata, -⟩ := hfresh
  obtain ⟨slot, hslot, -⟩ := Option.bind_eq_some_iff.mp hm
  obtain ⟨hx, hy⟩ := hr.nodeAt?_isSome.mp (by rw [hm]; rfl)
  have hwidth := hspec.width.2
  have hheight := hspec.height.2
  obtain ⟨s, hstatement, hcommand, hvalues, -, hsdata, hsstyle⟩ := ofLine?_written "NODE" (placeWords n) []
    (hline.trans (congrArg String.toList (nodeLine?_eq_some hshown))) (by decide) (by simp [placeWords]) (by simp) hback
  have happly := apply_node hvalues (by omega) (by omega) hslot hcommand
  rw [← applyLine_of_statement hstatement] at happly
  have hlasting := lasting_reread n.data n.style ["traversable"]
  have hkept : Bag.get? (Notation.reread (lasting n.data ["traversable"]) n.style).1 "traversable" = none := by
    rw [← hlasting, get?_lasting, if_pos (by decide)]
  have hsame : ∀ {f : Node → Node}, SameNode f → SamePlaces r (r.modifyNode slot f) := fun hf =>
    ⟨placeOf?_modifyNode slot hf, rfl, rfl⟩
  have hnodes := hr.nodeAt?_modifyNode hslot
  refine ⟨_, happly, hr.modifyNode slot fun _ => ⟨rfl, rfl, rfl, rfl⟩, hsame fun _ => ⟨rfl, rfl, rfl, rfl⟩, ?_, ?_⟩
  · have hget : Bag.get? [("traversable", Json.bool n.isTraversable)] "traversable" =
        some (.bool n.isTraversable) := rfl
    have hopen : ∀ {data style : Bag}, Node.isTraversable
        { m with data := data.set "traversable" (.bool n.isTraversable), style } = n.isTraversable := fun {data style} =>
      isTraversable_of_get? (by rw [Bag.get?_set, if_pos rfl])
    unfold RereadCell setNode cellCopy
    rw [hnodes, if_pos rfl, hm, Option.map_some, Option.map_some, hsdata, hsstyle, hdata, hget, hkept]
    unfold cellEntry
    dsimp only
    rw [hopen, lasting_set, if_pos (by decide), hlasting]
  · intro x y hplace
    unfold setNode
    rw [hnodes, if_neg hplace]

/-- **The lines of the nodes say of each node all there is to say.** -/
theorem read_nodes (hg : Lattice Fit spec g) (hr : Lattice Fit' spec' r) (hspec : Sized spec')
    (hback : ∀ n ∈ g.nodeList, (withStyle (lasting n.data ["traversable"]) n.style).ReadsBack)
    (hfresh : ∀ n ∈ g.nodeList, FreshCell n r) {lines : List Line}
    (hlines : lines.map Line.text = (g.nodeList.filterMap nodeLine?).map String.toList) :
    ∃ r', lines.forM applyLine r = .ok () r' ∧ Lattice Fit' spec' r' ∧ SamePlaces r r' ∧
      ∀ n ∈ g.nodeList, RereadCell n r' := by
  have hshown : lines.map Line.text = g.nodeList.filterMap fun n => (nodeLine? n).map String.toList := by
    rw [hlines, List.map_filterMap]
  have hnodup : g.nodeList.Nodup := hg.wired.arena.nodup_ids.of_map
  obtain ⟨r', hread, ⟨hlattice, hplaces⟩, hall⟩ := Edit.forM_shown applyLine
    (fun t => Lattice Fit' spec' t ∧ SamePlaces r t) FreshCell RereadCell hshown hnodup ⟨hr, fun _ => rfl, rfl, rfl⟩
    hfresh
    (by
      intro n hn line hline s hs hfresh
      obtain ⟨t, hshown, htext⟩ := Option.map_eq_some_iff.mp hline
      obtain ⟨s', hread, hlattice, hsame, hcopied, hothers⟩ :=
        apply_nodeLine hs.1 hspec (hback n hn) hshown htext.symm hfresh
      refine ⟨s', hread, ⟨hlattice, hs.2.trans hsame⟩, hcopied, fun c hc hne => ?_⟩
      have hplace : (c.x, c.y) ≠ (n.x, n.y) := by
        intro hplace
        obtain ⟨hx, hy⟩ := Prod.mk.inj hplace
        have hfound := hg.nodeAt?_of_mem hc
        rw [hx, hy, hg.nodeAt?_of_mem hn] at hfound
        exact hne (Option.some.inj hfound).symm
      unfold FreshCell RereadCell
      rw [hothers c.x c.y hplace]
      exact ⟨id, id⟩)
  refine ⟨r', hread, hlattice, hplaces, fun n hn => ?_⟩
  cases hline : nodeLine? n with
  | none => exact ((hall n hn).1 (by rw [hline]; rfl)).reread hline
  | some t => exact (hall n hn).2 (by rw [hline]; rfl)

end Nodes

/-! ## Edges -/

section Edges

variable {Fit : Contact → Edge → Prop} {spec spec' : GridSpec} {g r : Graph} {twin : Nat → Nat} {e : Edge}

/-- Between the twins of the ends of an edge of `g` there is one that has what the lattice implies. -/
def FreshEdge (g : Graph) (twin : Nat → Nat) (d : Diagonal) (e : Edge) (r : Graph) : Prop :=
  ∃ q e', r.edgeAt? q = some e' ∧ e'.Joins (twin e.source) (twin e.target) ∧
    ∀ c, g.contact? e.source e.target = some c → Implied d c e'

/-- One edge has what is read of another one that was written, set in what the lattice implies. It leaves the twin of
the node that the other one leaves, unless there was nothing to write. -/
structure Rereads (d mode : Diagonal) (c : Contact) (twin : Nat → Nat) (e e' : Edge) : Prop where
  joins : e'.Joins (twin e.source) (twin e.target)
  aligned : e'.source = twin e.source ∨ (edgeData c d e.data = [] ∧ e.style = [] ∧ e.bidirectional = true)
  flag : e'.bidirectional = e.bidirectional
  style : e'.style = setAll [] (reread (edgeData c d e.data) e.style).2
  data : e'.data = setAll (template mode c) (reread (edgeData c d e.data) e.style).1

/-- What is written of an edge was read for it. -/
def RereadEdge (g : Graph) (d mode : Diagonal) (twin : Nat → Nat) (e : Edge) (r : Graph) : Prop :=
  ∃ q e' c, r.edgeAt? q = some e' ∧ g.contact? e.source e.target = some c ∧ Rereads d mode c twin e e'

/-- One edge says all of another one that a document says. It leaves the twin of the node that the other one leaves,
unless both go both ways. -/
structure Copies (twin : Nat → Nat) (e e' : Edge) : Prop where
  joins : e'.Joins (twin e.source) (twin e.target)
  aligned : e'.source = twin e.source ∨ e.bidirectional = true
  flag : e'.bidirectional = e.bidirectional
  style : e'.style = e.style
  load : SameLoad e'.data e.data

/-- All that a document says of an edge was said of it. -/
def CopiedEdge (twin : Nat → Nat) (e : Edge) (r : Graph) : Prop := ∃ q e', r.edgeAt? q = some e' ∧ Copies twin e e'

/-- An edge whose data have no style of their own is read as it was. -/
theorem RereadEdge.copied (hg : Lattice Regular spec g) (hd : spec.diagonal.Finite) {mode : Diagonal}
    (hvalue : mode.value = spec.diagonal.value) {p : Nat} (he : g.edgeAt? p = some e)
    (hplain : e.data.get? "style" = none) (h : RereadEdge g spec.diagonal mode twin e r) : CopiedEdge twin e r := by
  obtain ⟨q, e', c, he', hc, hrereads⟩ := h
  obtain ⟨c', hc', hregular⟩ := hg.wired.fits he
  obtain rfl : c' = c := Option.some.inj (hc'.symm.trans hc)
  have hwritten : (edgeData c' spec.diagonal e.data).get? "style" = none := by
    rw [edgeData_eq]
    exact get?_lasting_eq_none _ hplain
  have hstyle := hrereads.style
  have hdata := hrereads.data
  rw [reread_of_plain e.style hwritten] at hstyle hdata
  refine ⟨q, e', he', hrereads.joins, hrereads.aligned.imp_right fun hnone => hnone.2.2, hrereads.flag, ?_, ?_⟩
  · rw [hstyle]
    exact setAll_nil hregular.style
  · rw [hdata]
    exact sameLoad_setAll hregular.data hvalue hd hregular.weight hregular.forbidden

/-- Of an edge without a line there is no more to say than what the lattice implies. -/
theorem FreshEdge.reread (hg : Wired Fit g) {p : Nat} (he : g.edgeAt? p = some e) {d mode : Diagonal}
    (hnone : edgeLine? g d e = none) (h : FreshEdge g twin mode e r) : RereadEdge g d mode twin e r := by
  obtain ⟨q, e', he', hjoins, himplied⟩ := h
  obtain ⟨m, hm⟩ := live_iff.mp (hg.arena.ends he).1
  obtain ⟨n, hn⟩ := live_iff.mp (hg.arena.ends he).2
  obtain ⟨c, hc, -⟩ := hg.fits he
  obtain ⟨hdata, hstyle, hflag⟩ := edgeLine?_eq_none hm hn hc hnone
  obtain ⟨hflag', hstyle', hdata'⟩ := himplied c hc
  refine ⟨q, e', c, he', hc, hjoins, .inr ⟨hdata, hstyle, hflag⟩, hflag'.trans hflag.symm, ?_, ?_⟩
  · rw [hstyle', hdata, hstyle]
    rfl
  · rw [hdata', hdata, hstyle]
    rfl

/-- The line of an edge says the rest of it, and nothing of any other. -/
theorem apply_edgeLine (hg : Wired Fit g) {p : Nat} (he : g.edgeAt? p = some e)
    (hr : Lattice Unchecked spec' r) (hspec : Sized spec') (htwins : Twins g r twin) {d mode : Diagonal}
    (hback : ∀ c, g.contact? e.source e.target = some c → (withStyle (edgeData c d e.data) e.style).ReadsBack)
    {t : String} (hshown : edgeLine? g d e = some t) {line : Line} (hline : line.text = t.toList)
    (hfresh : FreshEdge g twin mode e r) :
    ∃ r', applyLine line r = .ok () r' ∧ Lattice Unchecked spec' r' ∧ SameCells r r' ∧
      RereadEdge g d mode twin e r' ∧
      ∀ q e', r.edgeAt? q = some e' → ¬ e'.Joins (twin e.source) (twin e.target) → r'.edgeAt? q = some e' := by
  obtain ⟨q, e', he', hjoins, himplied⟩ := hfresh
  obtain ⟨m, hm⟩ := live_iff.mp (hg.arena.ends he).1
  obtain ⟨n, hn⟩ := live_iff.mp (hg.arena.ends he).2
  obtain ⟨c, hc, -⟩ := hg.fits he
  obtain ⟨-, hstyle', hdata'⟩ := himplied c hc
  have hplace := htwins e.source (m.x, m.y) (placeOf?_of_node? hm)
  have hplace' := htwins e.target (n.x, n.y) (placeOf?_of_node? hn)
  obtain ⟨hx, hy⟩ := hr.inside hplace
  obtain ⟨hx', hy'⟩ := hr.inside hplace'
  have hwidth := hspec.width.2
  have hheight := hspec.height.2
  obtain ⟨s, hstatement, hcommand, hvalues, hoptions, hsdata, hsstyle⟩ := ofLine?_written "EDGE"
    (placeWords m ++ placeWords n) (flagOptions e.bidirectional)
    (hline.trans (congrArg String.toList (edgeLine?_eq_some hm hn hc hshown))) (by decide) (by simp [placeWords])
    (readsAsOption_flag e.bidirectional) (hback c hc)
  obtain ⟨column, happly⟩ := apply_edge hcommand hvalues (by omega) (by omega) (by omega) (by omega)
    (hr.wired.slot?_cellId.mpr hplace) (hr.wired.slot?_cellId.mpr hplace')
  obtain ⟨r', hset, hlattice, hcells, hedges⟩ := setEdge_spec hr s column he' hjoins
  rw [hset, ← applyLine_of_statement hstatement] at happly
  refine ⟨r', happly, hlattice, hcells, ⟨q, _, c, by rw [hedges, if_pos rfl], hc, ?_⟩, ?_⟩
  · refine ⟨.inl ⟨rfl, rfl⟩, .inl rfl, isBidirectional_of_options hoptions, ?_, ?_⟩
    · unfold setIn
      dsimp only
      rw [hstyle', hsstyle]
    · unfold setIn
      dsimp only
      rw [hdata', hsdata]
  · intro q' old hold hapart
    have hq : q' ≠ q := by
      intro hq
      rw [hq, he'] at hold
      rw [← Option.some.inj hold] at hapart
      exact hapart hjoins
    rw [hedges, if_neg hq, hold]

/-- Twins of the ends of two edges are not joined by one edge. -/
theorem eq_of_joins_twins (hg : Wired Fit g) (htwins : Twins g r twin) {p p' : Nat} {e₁ e₂ e' : Edge}
    (he₁ : g.edgeAt? p = some e₁) (he₂ : g.edgeAt? p' = some e₂) (h₁ : e'.Joins (twin e₁.source) (twin e₁.target))
    (h₂ : e'.Joins (twin e₂.source) (twin e₂.target)) : e₁ = e₂ := by
  obtain ⟨hsource₁, htarget₁⟩ := hg.arena.ends he₁
  obtain ⟨hsource₂, htarget₂⟩ := hg.arena.ends he₂
  have hjoins : e₂.Joins e₁.source e₁.target := by
    rcases h₁ with ⟨hs₁, ht₁⟩ | ⟨hs₁, ht₁⟩
    · rcases h₂ with ⟨hs₂, ht₂⟩ | ⟨hs₂, ht₂⟩
      · exact .inl ⟨htwins.injective hg hsource₂ hsource₁ (hs₂.symm.trans hs₁),
          htwins.injective hg htarget₂ htarget₁ (ht₂.symm.trans ht₁)⟩
      · exact .inr ⟨htwins.injective hg hsource₂ htarget₁ (ht₂.symm.trans ht₁),
          htwins.injective hg htarget₂ hsource₁ (hs₂.symm.trans hs₁)⟩
    · rcases h₂ with ⟨hs₂, ht₂⟩ | ⟨hs₂, ht₂⟩
      · exact .inr ⟨htwins.injective hg hsource₂ htarget₁ (hs₂.symm.trans hs₁),
          htwins.injective hg htarget₂ hsource₁ (ht₂.symm.trans ht₁)⟩
      · exact .inl ⟨htwins.injective hg hsource₂ hsource₁ (ht₂.symm.trans ht₁),
          htwins.injective hg htarget₂ htarget₁ (hs₂.symm.trans hs₁)⟩
  obtain rfl := hg.single he₁ he₂ hjoins
  exact Option.some.inj (he₁.symm.trans he₂)

/-- **The lines of the edges say of each edge all there is to say.** -/
theorem read_edges (hg : Wired Fit g) (hr : Lattice Unchecked spec' r) (hspec : Sized spec')
    (htwins : Twins g r twin) {d mode : Diagonal}
    (hback : ∀ e ∈ g.edgeList, ∀ c, g.contact? e.source e.target = some c →
      (withStyle (edgeData c d e.data) e.style).ReadsBack)
    (hfresh : ∀ e ∈ g.edgeList, FreshEdge g twin mode e r) {lines : List Line}
    (hlines : lines.map Line.text = (g.edgeList.filterMap (edgeLine? g d)).map String.toList) :
    ∃ r', lines.forM applyLine r = .ok () r' ∧ Lattice Unchecked spec' r' ∧ SameCells r r' ∧
      ∀ e ∈ g.edgeList, RereadEdge g d mode twin e r' := by
  have hshown : lines.map Line.text = g.edgeList.filterMap fun e => (edgeLine? g d e).map String.toList := by
    rw [hlines, List.map_filterMap]
  have hnodup : g.edgeList.Nodup := hg.arena.nodup_edgeIds.of_map
  obtain ⟨r', hread, ⟨hlattice, hcells⟩, hall⟩ := Edit.forM_shown applyLine
    (fun t => Lattice Unchecked spec' t ∧ SameCells r t) (FreshEdge g twin mode) (RereadEdge g d mode twin) hshown
    hnodup ⟨hr, .refl r⟩ hfresh
    (by
      intro e he line hline s hs hfresh
      obtain ⟨p, hp⟩ := mem_edgeList.mp he
      obtain ⟨t, hshown, htext⟩ := Option.map_eq_some_iff.mp hline
      have htwins' : Twins g s twin := fun a place hplace => (hs.2.placeOf? _).trans (htwins a place hplace)
      obtain ⟨s', hread, hlattice, hcells, hreread, hothers⟩ :=
        apply_edgeLine hg hp hs.1 hspec htwins' (hback e he) hshown htext.symm hfresh
      refine ⟨s', hread, ⟨hlattice, hs.2.trans hcells⟩, hreread, fun c hc hne => ?_⟩
      obtain ⟨p', hp'⟩ := mem_edgeList.mp hc
      have hapart : ∀ e' : Edge, e'.Joins (twin c.source) (twin c.target) →
          ¬ e'.Joins (twin e.source) (twin e.target) := fun e' hjoins hjoins' =>
        hne (eq_of_joins_twins hg htwins hp' hp hjoins hjoins')
      constructor
      · intro hfresh
        obtain ⟨q, e', he', hjoins, himplied⟩ := hfresh
        exact ⟨q, e', hothers q e' he' (hapart e' hjoins), hjoins, himplied⟩
      · intro hreread
        obtain ⟨q, e', contact, he', hcontact, hrereads⟩ := hreread
        exact ⟨q, e', contact, hothers q e' he' (hapart e' hrereads.joins), hcontact, hrereads⟩)
  refine ⟨r', hread, hlattice, hcells, fun e he => ?_⟩
  obtain ⟨p, hp⟩ := mem_edgeList.mp he
  cases hline : edgeLine? g d e with
  | none => exact ((hall e he).1 (by rw [hline]; rfl)).reread hg hp hline
  | some t => exact (hall e he).2 (by rw [hline]; rfl)

/-- Before the lines of the edges, all edges are as the lattice implies. -/
theorem freshEdge_of_implied (hg : Lattice Fit spec g) {d : Diagonal} (hr : Lattice (Implied d) spec' r)
    (htwins : Twins g r twin) (he : e ∈ g.edgeList) : FreshEdge g twin d e r := by
  obtain ⟨p, hp⟩ := mem_edgeList.mp he
  obtain ⟨hsource, htarget⟩ := hg.wired.arena.ends hp
  obtain ⟨c, hc, _⟩ := hg.wired.fits hp
  have hcontact := (htwins.contact? hsource htarget).trans hc
  obtain ⟨q, e', he', hjoins⟩ := hr.joined hcontact
  obtain ⟨c', hc', himplied⟩ := hr.wired.fits he'
  rw [r.contact?_of_joins hjoins] at hc'
  refine ⟨q, e', he', hjoins, fun c'' hc'' => ?_⟩
  obtain rfl : c' = c'' := by
    rw [htwins.contact? hsource htarget, hc''] at hc'
    exact (Option.some.inj hc').symm
  exact himplied

end Edges

/-! ## The same content -/

section SameContent

variable {Fit : Contact → Edge → Prop} {spec spec' : GridSpec} {g r : Graph} {twin : Nat → Nat}

/-- An edge between two nodes is seen from the first one to the second. -/
theorem ends_view {e : Edge} {a b : Nat} (h : e.Joins a b) :
    EdgeView.source ⟨e, e.source != a⟩ = a ∧ EdgeView.target ⟨e, e.source != a⟩ = b := by
  unfold EdgeView.source EdgeView.target
  by_cases hsource : e.source = a
  · rcases h with ⟨hs, ht⟩ | ⟨hs, ht⟩
    · simp [hs, ht]
    · simp [hs, ht, ← hsource]
  · rcases h with ⟨hs, ht⟩ | ⟨hs, ht⟩
    · exact absurd hs hsource
    · have hne : b ≠ a := hs ▸ hsource
      simp [hs, ht, hne]

/-- The twin of a node lets one pass as the node does. -/
theorem passes_twin (hr : Lattice Unchecked spec' r) (htwins : Twins g r twin)
    (hcells : ∀ n ∈ g.nodeList, CopiedCell n r) {a : Nat} (ha : g.Live a) :
    (r.node? (twin a)).any Node.isTraversable = (g.node? a).any Node.isTraversable := by
  obtain ⟨n, hn⟩ := live_iff.mp ha
  have hcell := hcells n (mem_nodeList.mpr ⟨a, hn⟩)
  have hplace := htwins a (n.x, n.y) (placeOf?_of_node? hn)
  unfold CopiedCell at hcell
  rw [hr.nodeAt?_of_place hplace] at hcell
  obtain ⟨m, hm, hentry⟩ := Option.map_eq_some_iff.mp hcell
  rw [hm, hn]
  exact congrArg Prod.fst hentry

/-- A copied edge is seen as the edge that it is copied from, in both directions. -/
theorem viewEntry_eq (hg : Lattice Fit spec g) (hr : Lattice Unchecked spec' r) (htwins : Twins g r twin)
    (hcells : ∀ n ∈ g.nodeList, CopiedCell n r) {p a b : Nat} {e e' : Edge} (he : g.edgeAt? p = some e)
    (hjoins : e.Joins a b) (hjoins' : e'.Joins (twin a) (twin b)) (hcopies : Copies twin e e') :
    viewEntry r ⟨e', e'.source != twin a⟩ = viewEntry g ⟨e, e.source != a⟩ := by
  have hlive : g.Live a ∧ g.Live b := by
    obtain ⟨hsource, htarget⟩ := hg.wired.arena.ends he
    rcases hjoins with ⟨rfl, rfl⟩ | ⟨rfl, rfl⟩
    · exact ⟨hsource, htarget⟩
    · exact ⟨htarget, hsource⟩
  obtain ⟨hsource, htarget⟩ := ends_view hjoins
  obtain ⟨hsource', htarget'⟩ := ends_view hjoins'
  have hdirection : (e.bidirectional || e'.isFlipped == (e'.source != twin a)) =
      (e.bidirectional || e.isFlipped == (e.source != a)) := by
    rcases hcopies.aligned with haligned | hboth
    · have hflipped : e'.isFlipped = e.isFlipped := hcopies.load.flipped
      have hreversed : (e'.source != twin a) = (e.source != a) := by
        rw [Bool.eq_iff_iff, bne_iff_ne, bne_iff_ne, haligned, not_iff_not]
        constructor
        · intro hsame
          exact htwins.injective hg.wired (hg.wired.arena.ends he).1 hlive.1 hsame
        · intro hsame
          rw [hsame]
      rw [hflipped, hreversed]
    · rw [hboth, Bool.true_or, Bool.true_or]
  have hforbidden : e'.isForbidden = e.isForbidden := hcopies.load.forbidden
  have hpassable : r.isTraversable ⟨e', e'.source != twin a⟩ = g.isTraversable ⟨e, e.source != a⟩ := by
    unfold isTraversable
    simp only [hsource, htarget, hsource', htarget']
    rw [passes_twin hr htwins hcells hlive.1, passes_twin hr htwins hcells hlive.2, hforbidden, hcopies.flag,
      hdirection]
  have hweight : e'.weight.toFloat = e.weight.toFloat := hcopies.load.weight
  unfold viewEntry
  rw [hpassable, hweight, hcopies.flag, hcopies.style, hcopies.load.rest]

/-- Cells within the bounds that touch have one edge from one to the other. -/
theorem viewsBetween_of_touch (hg : Lattice Fit spec g) {p q : Nat × Nat} {c : Contact} (hc : touch? p q = some c)
    (hp : p.1 < spec.width ∧ p.2 < spec.height) (hq : q.1 < spec.width ∧ q.2 < spec.height) :
    ∃ v, viewsBetween g p q = [v] := by
  obtain ⟨a, ha⟩ := hg.filled hp.1 hp.2
  obtain ⟨b, hb⟩ := hg.filled hq.1 hq.2
  have hcontact := (contact?_of_places (hg.wired.slot?_cellId.mp ha) (hg.wired.slot?_cellId.mp hb)).trans hc
  obtain ⟨place, e, he, hjoins⟩ := hg.joined hcontact
  refine ⟨⟨e, e.source != a⟩, ?_⟩
  unfold viewsBetween
  rw [ha, hb]
  exact hg.wired.between_of_joins he hjoins

variable (hg : Lattice Fit spec g) (hr : Lattice Unchecked spec' r) (hwidth : spec'.width = spec.width)
  (hheight : spec'.height = spec.height)

include hg hr hwidth hheight

/-- The cells are the same, also where there are none. -/
theorem cells_eq (hcells : ∀ n ∈ g.nodeList, CopiedCell n r) (x y : Nat) :
    (r.nodeAt? x y).map cellEntry = (g.nodeAt? x y).map cellEntry := by
  cases hfound : g.nodeAt? x y with
  | some n =>
      obtain ⟨hn, rfl, rfl⟩ := hg.mem_of_nodeAt? hfound
      exact hcells n hn
  | none =>
      have houtside : ¬ (r.nodeAt? x y).isSome = true := by
        rw [hr.nodeAt?_isSome, hwidth, hheight, ← hg.nodeAt?_isSome, hfound]
        exact Bool.false_ne_true
      rw [Option.not_isSome_iff_eq_none.mp houtside]

/-- The edges from one cell to another are the same, also where there are none. -/
theorem views_eq (htwins : Twins g r twin) (hcells : ∀ n ∈ g.nodeList, CopiedCell n r)
    (hedges : ∀ e ∈ g.edgeList, CopiedEdge twin e r) (p q : Nat × Nat) :
    (viewsBetween r p q).map (viewEntry r) = (viewsBetween g p q).map (viewEntry g) := by
  have houtside : ∀ x y, g.slot? (cellId x y) = none → r.slot? (cellId x y) = none := by
    intro x y hnone
    cases hslot : r.slot? (cellId x y) with
    | none => rfl
    | some s =>
        obtain ⟨hx, hy⟩ := hr.inside (hr.wired.slot?_cellId.mp hslot)
        obtain ⟨s', hs'⟩ := hg.filled (hwidth ▸ hx) (hheight ▸ hy)
        rw [hnone] at hs'
        exact absurd hs' (by simp)
  unfold viewsBetween
  cases ha : g.slot? (cellId p.1 p.2) with
  | none =>
      rw [houtside p.1 p.2 ha]
      rfl
  | some a =>
      have hplace := hg.wired.slot?_cellId.mp ha
      rw [hr.wired.slot?_cellId.mpr (htwins a p hplace)]
      cases hb : g.slot? (cellId q.1 q.2) with
      | none =>
          rw [houtside q.1 q.2 hb]
          rfl
      | some b =>
          have hplace' := hg.wired.slot?_cellId.mp hb
          rw [hr.wired.slot?_cellId.mpr (htwins b q hplace')]
          dsimp only
          have hcontact : r.contact? (twin a) (twin b) = g.contact? a b := by
            rw [contact?_of_places (htwins a p hplace) (htwins b q hplace'), contact?_of_places hplace hplace']
          cases hc : g.contact? a b with
          | some c =>
              obtain ⟨place, e, he, hjoins⟩ := hg.joined hc
              obtain ⟨place', e', he', hcopies⟩ := hedges e (mem_edgeList.mpr ⟨place, he⟩)
              have hjoins' : e'.Joins (twin a) (twin b) := by
                rcases hjoins with ⟨rfl, rfl⟩ | ⟨rfl, rfl⟩
                · exact hcopies.joins
                · exact hcopies.joins.comm
              rw [hg.wired.between_of_joins he hjoins, hr.wired.between_of_joins he' hjoins', List.map_singleton,
                List.map_singleton, viewEntry_eq hg hr htwins hcells he hjoins hjoins' hcopies]
          | none =>
              rw [hg.wired.between_of_apart hc, hr.wired.between_of_apart (hcontact.trans hc)]
              rfl

end SameContent

/-! ## The whole document -/

/-- Reading succeeds where the rows and the statements behind them do. -/
theorem read_of_parts {headerLine width height : Nat} {lines : List Line} {new r r' : Graph}
    (hnew : ofGrid width height .disabled = .ok new)
    (hrows : applyRows headerLine width height lines new = .ok () r)
    (hstatements : (lines.drop height).forM applyLine r = .ok () r') :
    read headerLine width height lines = .ok r' := by
  have hbuild : (applyRows headerLine width height lines >>= fun _ => (lines.drop height).forM applyLine) new =
      .ok () r' := (Edit.bind_ok hrows).trans hstatements
  unfold read
  simp only [hnew, hbuild]

/-- A grid is what is read of the document of another one. -/
structure ReadFrom (g : Graph) (spec : GridSpec) (mode : Diagonal) (twin : Nat → Nat) (r : Graph) : Prop where
  value : mode.value = spec.diagonal.value
  lattice : Lattice Unchecked ⟨spec.width, spec.height, mode⟩ r
  twins : Twins g r twin
  start : r.start.bind r.placeOf? = g.start.bind g.placeOf?
  goal : r.goal.bind r.placeOf? = g.goal.bind g.placeOf?
  cells : ∀ n ∈ g.nodeList, RereadCell n r
  edges : ∀ e ∈ g.edgeList, RereadEdge g spec.diagonal mode twin e r

section Reading

variable {Fit : Contact → Edge → Prop} {spec : GridSpec} {g : Graph} (hg : Lattice Fit spec g) (hspec : Sized spec)
  (hd : Spelt spec.diagonal)
  (hbackNodes : ∀ n ∈ g.nodeList, (withStyle (lasting n.data ["traversable"]) n.style).ReadsBack)
  (hbackEdges : ∀ e ∈ g.edgeList, ∀ c, g.contact? e.source e.target = some c →
    (withStyle (edgeData c spec.diagonal e.data) e.style).ReadsBack)
include hg hspec hd hbackNodes hbackEdges

/-- The statements of a lattice make it of the grid that its rows are read as. -/
theorem read_statements {r : Graph} (hlattice : Lattice Blank ⟨spec.width, spec.height, .disabled⟩ r)
    (hstart : r.start = none) (hgoal : r.goal = none) (hfresh : ∀ n ∈ g.nodeList, FreshCell n r) {statements : List Line}
    (hstatements : statements.map Line.text = (statementLines g spec).map String.toList) :
    ∃ r' mode twin, statements.forM applyLine r = .ok () r' ∧ ReadFrom g spec mode twin r' := by
  unfold statementLines at hstatements
  rw [List.map_append, List.map_append, List.map_append, List.map_append] at hstatements
  obtain ⟨diagonals, others, rfl, hdiagonals, hothers⟩ := List.map_eq_append_iff.mp hstatements
  obtain ⟨starts, others, rfl, hstarts, hothers⟩ := List.map_eq_append_iff.mp hothers
  obtain ⟨goals, others, rfl, hgoals, hothers⟩ := List.map_eq_append_iff.mp hothers
  obtain ⟨nodes, edges, rfl, hnodes, hedges⟩ := List.map_eq_append_iff.mp hothers
  obtain ⟨diagonal, rfl, hdiagonal⟩ := List.map_eq_singleton_iff.mp hdiagonals
  -- One graph behind each group of statements.
  obtain ⟨mode, r₁, hread₁, hvalue, hlattice₁, hcells₁⟩ := read_diagonal hlattice hd hdiagonal
  have hsized : Sized ⟨spec.width, spec.height, mode⟩ := ⟨hspec.width, hspec.height⟩
  obtain ⟨twin, htwins₁⟩ := exists_twins hg hlattice₁ rfl rfl
  obtain ⟨r₂, hread₂, hlattice₂, hgoal₂, hplaces₂, hnodes₂, hstart₂⟩ :=
    read_start hg hlattice₁ hsized htwins₁ (hcells₁.start.trans hstart) hstarts
  have htwins₂ : Twins g r₂ twin := fun s p hp => (hplaces₂ _).trans (htwins₁ s p hp)
  obtain ⟨r₃, hread₃, hlattice₃, hstart₃, hplaces₃, hnodes₃, hgoal₃⟩ :=
    read_goal hg hlattice₂ hsized htwins₂ (hgoal₂.trans (hcells₁.goal.trans hgoal)) hgoals
  have hfresh₃ : ∀ n ∈ g.nodeList, FreshCell n r₃ := by
    intro n hn
    unfold FreshCell
    rw [hnodes₃, hnodes₂, hcells₁.nodeAt?]
    exact hfresh n hn
  obtain ⟨r₄, hread₄, hlattice₄, hplaces₄, hreread₄⟩ := read_nodes hg hlattice₃ hsized hbackNodes hfresh₃ hnodes
  have htwins₄ : Twins g r₄ twin := fun s p hp =>
    (hplaces₄.places _).trans ((hplaces₃ _).trans (htwins₂ s p hp))
  obtain ⟨r₅, hread₅, hlattice₅, hcells₅, hreread₅⟩ :=
    read_edges hg.wired hlattice₄.unchecked hsized htwins₄ hbackEdges
      (fun e he => freshEdge_of_implied hg hlattice₄ htwins₄ he) hedges
  have hplaces := hplaces₄.trans hcells₅.samePlaces
  refine ⟨r₅, mode, twin, ?_, hvalue, hlattice₅, ?_, ?_, ?_, ?_, hreread₅⟩
  · have hone : [diagonal].forM applyLine r = .ok () r₁ := Edit.bind_ok hread₁
    rw [Edit.forM_append hone, Edit.forM_append hread₂, Edit.forM_append hread₃, Edit.forM_append hread₄, hread₅]
  · exact fun s p hp => (hcells₅.placeOf? _).trans (htwins₄ s p hp)
  · rw [hplaces.start, hstart₃, ← hstart₂]
    congr 1
    funext s
    rw [hplaces.places, hplaces₃]
  · rw [hplaces.goal, ← hgoal₃]
    congr 1
    funext s
    rw [hplaces.places]
  · intro n hn
    unfold RereadCell
    rw [hcells₅.nodeAt?]
    exact hreread₄ n hn

/-- **The document of a lattice is read**, as long as its data and the cost of diagonals are. -/
theorem read_of_lattice : ∃ r mode twin, Notation.read (Notation.write g) = .ok r ∧ ReadFrom g spec mode twin r := by
  have hwrite : Notation.write g = write g := by simp [Notation.write, isGrid, hg.grid]
  obtain ⟨header, body, hlines, hheader, hbody⟩ :=
    List.map_eq_cons_iff.mp (text_lines_write hg hspec.width.1 (trimmed_diagonalLine hd.bare))
  obtain ⟨rows, statements, rfl, hrows, hstatements⟩ := List.map_eq_append_iff.mp hbody
  have hcount : rows.length = spec.height := by
    have hlengths := congrArg List.length hrows
    simpa using hlengths
  have htake : (rows ++ statements).take spec.height = rows := by rw [← hcount, List.take_left]
  have hdrop : (rows ++ statements).drop spec.height = statements := by rw [← hcount, List.drop_left]
  obtain ⟨new, r₀, hnew, hread₀, hlattice₀, hstart₀, hgoal₀, hfresh₀⟩ :=
    read_rows hg hspec.width.1 header.number ((congrArg _ htake).trans hrows)
  obtain ⟨r, mode, twin, hread, h⟩ :=
    read_statements hg hspec hd hbackNodes hbackEdges hlattice₀ hstart₀ hgoal₀ hfresh₀ hstatements
  refine ⟨r, mode, twin, ?_, h⟩
  rw [hwrite, Notation.read, hlines]
  simp only [ofLine_header hheader hspec.width hspec.height]
  exact read_of_parts hnew hread₀ (by rw [hdrop]; exact hread)

end Reading

/-- A lattice that can be written is read back. -/
theorem read_write_of_lattice {spec : GridSpec} {g : Graph} (hg : Lattice Regular spec g) (hspec : Sound spec)
    (hwritable : Writable g spec) :
    ∃ r, Notation.read (Notation.write g) = .ok r ∧ content r = content g := by
  obtain ⟨r, mode, twin, hread, h⟩ := read_of_lattice hg hspec.sized (spelt_of_finite hspec.diagonal hwritable.diagonal)
    (fun n hn => (hwritable.nodes n hn).2) fun e he => (hwritable.edges e he).2
  have hcopied : ∀ n ∈ g.nodeList, CopiedCell n r := fun n hn => (h.cells n hn).copied (hwritable.nodes n hn).1
  have hcopied' : ∀ e ∈ g.edgeList, CopiedEdge twin e r := by
    intro e he
    obtain ⟨p, hp⟩ := mem_edgeList.mp he
    exact (h.edges e he).copied hg hspec.diagonal h.value hp (hwritable.edges e he).1
  have hid : ∀ {Fit : Contact → Edge → Prop} {spec : GridSpec} {t : Graph}, Lattice Fit spec t → ∀ slot : Option Nat,
      slot.bind t.idOf? = (slot.bind t.placeOf?).map fun p => cellId p.1 p.2 := by
    intro Fit spec t ht slot
    cases slot with
    | none => rfl
    | some s => exact ht.idOf?_eq s
  refine ⟨r, hread, ?_⟩
  unfold content
  rw [h.lattice.grid, hg.grid, hid h.lattice, hid h.lattice, hid hg, hid hg, h.start, h.goal]
  have hcells := cells_eq hg h.lattice rfl rfl hcopied
  have hviews := views_eq hg h.lattice rfl rfl h.twins hcopied hcopied'
  simp only [hcells, hviews, Option.map_some, h.value]

/-- **Grids are read back.** Whatever adjustments are made of a new grid, its document is read, and the grid that is
read has the same size and cost of diagonals, the same cells, start and goal, and between every two cells the same edges
in either direction; between cells that touch there is just one. No data may have a style of their own, and of data and
of the cost of diagonals it is assumed that their written form reads back. -/
theorem read_write_adjusted {width height : Nat} {d : Diagonal} (hwidth : IsSize width) (hheight : IsSize height)
    (hd : d.Finite) {new : Graph} (hnew : ofGrid width height d = .ok new) {ops : List Adjustment}
    (hops : ∀ op ∈ ops, op.Allowed)
    (hwritable : ∀ spec, (adjustAll ops new).grid = some spec → Writable (adjustAll ops new) spec) :
    (∃ r, Notation.read (Notation.write (adjustAll ops new)) = .ok r ∧ content r = content (adjustAll ops new)) ∧
      ∀ x y u v c, touch? (x, y) (u, v) = some c → ((adjustAll ops new).nodeAt? x y).isSome = true →
        ((adjustAll ops new).nodeAt? u v).isSome = true →
        ∃ view, viewsBetween (adjustAll ops new) (x, y) (u, v) = [view] := by
  obtain ⟨g, hg, hlattice, -⟩ := lattice_ofGrid width height (completable_regular d)
  obtain rfl : g = new := by
    rw [hnew] at hg
    exact (Except.ok.inj hg).symm
  obtain ⟨spec, hadjusted, hsound⟩ := lattice_adjustAll hops hlattice ⟨hwidth, hheight, hd⟩
  refine ⟨read_write_of_lattice hadjusted hsound (hwritable spec hadjusted.grid), ?_⟩
  intro x y u v c hc hfirst hsecond
  exact viewsBetween_of_touch hadjusted hc (hadjusted.nodeAt?_isSome.mp hfirst) (hadjusted.nodeAt?_isSome.mp hsecond)

/-- Two cells side by side. -/
def sampleGrid : Graph where
  grid := some ⟨2, 1, .disabled⟩
  nodes := #[some { slot := 0, id := "0_0" }, some { slot := 1, id := "1_0", x := 1 }]
  slots := ((∅ : Std.HashMap String Nat).insert "0_0" 0).insert "1_0" 1
  edges := #[some { id := ⟨1⟩, source := 0, target := 1, bidirectional := true }]
  index := some (({} : Adjacency).add { id := ⟨1⟩, source := 0, target := 1, bidirectional := true })
  needsRedraw := true

/-- A blocked cell with a label and a style, and an edge that goes one way, against the direction it was laid in, at a
cost of its own. -/
def sampleAdjustments : List Adjustment :=
  [.setNode 0 [("traversable", .bool false), ("label", .text "a b")] [("color", .text "red")], .setEdgeFlag ⟨1⟩ false,
    .setEdgeData ⟨1⟩ "w" (.int 3), .reorientEdge ⟨1⟩, .setStart (some 1)]

theorem ofGrid_sample : ofGrid 2 1 .disabled = .ok sampleGrid := by
  have hcells : cells 2 1 = [(0, 0), (1, 0)] := by decide
  have hleft : cellId 0 0 = "0_0" := by decide
  have hright : cellId 1 0 = "1_0" := by decide
  have hbeside : neighbours 2 1 0 0 = [⟨1, 0, false⟩] := by decide
  have hbeside' : neighbours 2 1 1 0 = [⟨0, 0, false⟩] := by decide
  simp [sampleGrid, ofGrid, hcells, bind, EStateM.bind, pure, EStateM.pure, insertCell, slot?, insertNode, hleft,
    hright, completeAllEdges, nodeList, completeEdges, gridSpec, node?, hbeside, hbeside', completeEdge, cellSlot,
    between, leaving, passable, incident, currentIndex, reindex, Adjacency.entries, linkCells, Adjacency.add, view?,
    edge?, place?, nextEdgeId, Adjacency.push, Adjacency.setEntries, Std.HashMap.getElem_insert,
    Std.HashMap.getD_insert, EdgeId.reversed, EdgeId.isReverse, EdgeView.target, redraw]

theorem adjustAll_sample :
    (adjustAll sampleAdjustments sampleGrid).grid = some ⟨2, 1, .disabled⟩ ∧
    (adjustAll sampleAdjustments sampleGrid).nodes =
      #[some
          { slot := 0, id := "0_0", data := [("traversable", .bool false), ("label", .text "a b")],
            style := [("color", .text "red")] },
        some { slot := 1, id := "1_0", x := 1 }] ∧
    (adjustAll sampleAdjustments sampleGrid).edges =
      #[some { id := ⟨1⟩, source := 1, target := 0, bidirectional := false, data := [("w", .int 3)] }] := by
  simp [sampleAdjustments, sampleGrid, adjustAll, Adjustment.run, Adjustment.edit, Edit.after, Edit.modify_ok,
    modifyNode, modifyEdge, restructured, updateEdge, place?, reorientEdge,
    setStart, checkSlot, edge?, node?, redraw, Bag.set, Json.store]

theorem read_write_adjusted_sample :
    (∃ r, Notation.read (Notation.write (adjustAll sampleAdjustments sampleGrid)) = .ok r ∧
      content r = content (adjustAll sampleAdjustments sampleGrid)) ∧
    ∀ x y u v c, touch? (x, y) (u, v) = some c →
      ((adjustAll sampleAdjustments sampleGrid).nodeAt? x y).isSome = true →
      ((adjustAll sampleAdjustments sampleGrid).nodeAt? u v).isSome = true →
      ∃ view, viewsBetween (adjustAll sampleAdjustments sampleGrid) (x, y) (u, v) = [view] := by
  refine read_write_adjusted ⟨by decide, by decide⟩ ⟨by decide, by decide⟩ ⟨rfl, rfl⟩ ofGrid_sample ?_ ?_
  · intro op hop
    simp only [sampleAdjustments, List.mem_cons, List.not_mem_nil, or_false] at hop
    rcases hop with rfl | rfl | rfl | rfl | rfl <;> trivial
  · obtain ⟨hgrid, hnodes, hedges⟩ := adjustAll_sample
    intro spec hspec
    rw [hgrid] at hspec
    cases hspec
    refine ⟨?_, ?_, by decide⟩
    · intro n hn
      rw [nodeList, hnodes] at hn
      rcases List.mem_cons.mp hn with rfl | hn
      · exact ⟨rfl, by unfold Bag.ReadsBack; rfl⟩
      · obtain rfl := List.mem_singleton.mp hn
        exact ⟨rfl, by unfold Bag.ReadsBack; rfl⟩
    · intro e he
      rw [edgeList, hedges] at he
      obtain rfl := List.mem_singleton.mp he
      refine ⟨rfl, fun c hc => ?_⟩
      obtain rfl : Contact.orthogonal = c := by
        simp only [contact?, node?, hnodes] at hc
        exact Option.some.inj hc
      unfold Bag.ReadsBack
      rfl

end SearchLab.Notation.Grid
