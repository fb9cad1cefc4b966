import SearchLab.Proofs.Graph.Cells
import SearchLab.Proofs.Notation.GridLines
import SearchLab.Proofs.Notation.Payload

/-!
# What the lines of a grid document do

A statement changes one node, one edge or one end of a grid and leaves all else alone, and a row changes the cells at
its height. Of the edges nothing is asked here but that they join cells that touch: the reader sets whatever data and
style the document has.

* `setEdge_spec` — the edge between two cells is changed, and leaves the first one afterwards;
* `applyRows_spec` — each cell lets one pass as its row has it.
-/

namespace SearchLab.Notation.Grid

open SearchLab.Graph

/-! ## Statements -/

section Statements

variable {Fit : Contact → Edge → Prop} {spec : GridSpec} {g : Graph} {s : Statement}

/-- A line does what the statement on it does. -/
theorem applyLine_of_statement {line : Line} (h : Statement.ofLine? line = .ok (some s)) :
    applyLine line = apply s := by
  funext g
  have hread : Edit.check (fun _ => Statement.ofLine? line) g = .ok (some s) g := Edit.check_ok h
  exact Edit.bind_ok hread

/-- The arguments that name a cell lead to its slot. -/
theorem cellArg_toString {x y slot : Nat} {a b : Arg} (ha : a.value = toString x) (hb : b.value = toString y)
    (hx : x ≤ Decimal.maxCount) (hy : y ≤ Decimal.maxCount) (hslot : g.slot? (cellId x y) = some slot)
    (phase : String) : cellArg g s (a, b) phase = .ok slot := by
  unfold cellArg
  rw [coordinate_toString hx s ha phase, coordinate_toString hy s hb phase]
  simp only [bind, Except.bind, hslot]
  rfl

section Commands

variable {x y slot : Nat} (hargs : s.args.map Arg.value = [toString x, toString y]) (hx : x ≤ Decimal.maxCount)
  (hy : y ≤ Decimal.maxCount) (hslot : g.slot? (cellId x y) = some slot)

include hargs hx hy hslot

/-- Two arguments that name a cell are found, and what follows is done with its slot. -/
theorem bind_cell (phase : String) (next : Nat → Edit Graph Unit) :
    ((Edit.check fun _ => s.two phase) >>= fun args =>
      (Edit.check fun g => cellArg g s args phase) >>= next) g = next slot g := by
  obtain ⟨a, rest, hall, ha, hrest⟩ := List.map_eq_cons_iff.mp hargs
  obtain ⟨b, rfl, hb⟩ := List.map_eq_singleton_iff.mp hrest
  have hread : Edit.check (fun _ => s.two phase) g = .ok (a, b) g :=
    Edit.check_ok (by simp [Statement.two, hall])
  have hfound : Edit.check (fun g => cellArg g s (a, b) phase) g = .ok slot g :=
    Edit.check_ok (cellArg_toString ha hb hx hy hslot phase)
  exact (Edit.bind_ok hread).trans (Edit.bind_ok hfound)

theorem apply_node (hcommand : s.command = "NODE") : apply s g = .ok () (setNode slot s.data s.style g) := by
  simp only [apply, hcommand]
  exact bind_cell hargs hx hy hslot "node setup" _

theorem apply_start (hcommand : s.command = "START") : apply s g = Graph.setStart (some slot) g := by
  simp only [apply, hcommand]
  exact bind_cell hargs hx hy hslot "start node indication" _

theorem apply_goal (hcommand : s.command = "GOAL") : apply s g = Graph.setGoal (some slot) g := by
  simp only [apply, hcommand]
  exact bind_cell hargs hx hy hslot "goal node indication" _

end Commands

theorem apply_diagonal {arg : Arg} {d : Diagonal} (hcommand : s.command = "DIAGONAL") (hargs : s.args = [arg])
    (hd : Diagonal.ofText? arg.value = some d) : apply s g = Graph.setDiagonal d g := by
  have hone : Edit.check (fun _ => s.one "diagonal setting") g = .ok arg g :=
    Edit.check_ok (by simp [Statement.one, hargs])
  simp only [apply, hcommand]
  refine (Edit.bind_ok hone).trans ?_
  rw [hd]

theorem apply_edge {x y u v a b : Nat} (hcommand : s.command = "EDGE")
    (hargs : s.args.map Arg.value = [toString x, toString y, toString u, toString v])
    (hx : x ≤ Decimal.maxCount) (hy : y ≤ Decimal.maxCount) (hu : u ≤ Decimal.maxCount) (hv : v ≤ Decimal.maxCount)
    (ha : g.slot? (cellId x y) = some a) (hb : g.slot? (cellId u v) = some b) :
    ∃ column, apply s g = setEdge s column a b g := by
  obtain ⟨i, rest, hall, hi, hrest⟩ := List.map_eq_cons_iff.mp hargs
  obtain ⟨j, rest, rfl, hj, hrest⟩ := List.map_eq_cons_iff.mp hrest
  obtain ⟨k, rest, rfl, hk, hrest⟩ := List.map_eq_cons_iff.mp hrest
  obtain ⟨l, rfl, hl⟩ := List.map_eq_singleton_iff.mp hrest
  have hfour : Edit.check (fun _ => s.four "edge setup") g = .ok (i, j, k, l) g :=
    Edit.check_ok (by simp [Statement.four, hall])
  have hfirst : Edit.check (fun g => cellArg g s (i, j) "edge setup") g = .ok a g :=
    Edit.check_ok (cellArg_toString hi hj hx hy ha _)
  have hsecond : Edit.check (fun g => cellArg g s (k, l) "edge setup") g = .ok b g :=
    Edit.check_ok (cellArg_toString hk hl hu hv hb _)
  refine ⟨i.column, ?_⟩
  simp only [apply, hcommand]
  exact (Edit.bind_ok hfour).trans ((Edit.bind_ok hfirst).trans (Edit.bind_ok hsecond))

/-- An edge with the flag of a statement, and its data and style set in what was there. -/
def setIn (s : Statement) (e : Edge) : Edge :=
  { e with data := setAll e.data s.data, style := setAll e.style s.style, bidirectional := s.isBidirectional }

/-- Setting an edge turns it around first when it is found backwards. -/
theorem setEdge_of_view (s : Statement) (column : Nat) {a b : Nat} {view : EdgeView} {rest : List EdgeView}
    (hview : g.reindex.between a b true = view :: rest) :
    setEdge s column a b g =
      ((if view.id.isReverse = true then Graph.reorientEdge view.id else pure ()) >>= fun _ =>
        modify fun g => g.modifyEdge view.id (setIn s)) g.reindex := by
  have hreindex : (modify Graph.reindex : Edit Graph Unit) g = .ok () g.reindex := rfl
  rw [setEdge]
  refine (Edit.bind_ok hreindex).trans ((Edit.get_bind _ _).trans ?_)
  simp only [hview, List.head?_cons]
  split
  · rfl
  · rfl

/-- The edge between two cells gets the flag of the statement, and its data and style are set in what is there. It
leaves the first cell afterwards, also where it had to be turned around. -/
theorem setEdge_spec (h : Lattice Unchecked spec g) (s : Statement) (column : Nat) {p a b : Nat} {e : Edge}
    (he : g.edgeAt? p = some e) (hjoins : e.Joins a b) :
    ∃ g', setEdge s column a b g = .ok () g' ∧ Lattice Unchecked spec g' ∧ SameCells g g' ∧
      ∀ q, g'.edgeAt? q = if q = p then some (setIn s { e with source := a, target := b }) else g.edgeAt? q := by
  have hindexed : Lattice Unchecked spec g.reindex := h.of_same_edges (.reindex g) rfl rfl rfl
  have hcells : SameCells g g.reindex := ⟨rfl, rfl, rfl, rfl, rfl⟩
  have he' : g.reindex.edgeAt? p = some e := he
  have hid : e.id = ⟨p + 1⟩ := hindexed.wired.arena.number he'
  have hview := hindexed.wired.between_of_joins he' hjoins
  have hplace := place?_view hindexed.wired.arena he' (e.source != a)
  have hset : SameEdge (setIn s) := fun _ => ⟨rfl, rfl, rfl⟩
  obtain ⟨c, hcontact, _⟩ := hindexed.wired.fits he'
  have hne : e.source ≠ e.target := ne_of_contact? hcontact
  rw [setEdge_of_view s column hview]
  rcases hjoins with ⟨rfl, rfl⟩ | ⟨rfl, rfl⟩
  · have hforth : (e.source != e.source) = false := bne_self_eq_false _
    rw [hforth] at hplace ⊢
    have hstraight : ¬ (EdgeView.id ⟨e, false⟩).isReverse = true := by
      have hsigned : (EdgeView.id ⟨e, false⟩).signed = p + 1 := congrArg EdgeId.signed hid
      have hpositive : decide ((EdgeView.id ⟨e, false⟩).signed < 0) = false := decide_eq_false (by omega)
      exact ne_true_of_eq_false hpositive
    rw [if_neg hstraight]
    refine ⟨_, rfl, hindexed.modifyEdge _ hset fun _ => trivial, hcells.modifyEdge _ _, ?_⟩
    intro q
    refine (edgeAt?_changeEdge g.reindex _ (setIn s) q).trans ?_
    rw [hplace]
    by_cases hq : q = p
    · simp [hq, he']
    · rw [if_neg (by simpa using Ne.symm hq), if_neg hq]
      rfl
  · have hback : (e.source != e.target) = true := by simpa using hne
    rw [hback] at hplace ⊢
    have hreverse : (EdgeView.id ⟨e, true⟩).isReverse = true := by
      have hsigned : (EdgeView.id ⟨e, true⟩).signed = -(p + 1) := congrArg (fun id => -id.signed) hid
      exact decide_eq_true (by omega)
    have hedge : g.reindex.edge? (EdgeView.id ⟨e, true⟩) = some e := by rw [edge?_eq, hplace, Option.bind_some, he']
    have hturned := hindexed.turnEdge (EdgeView.id ⟨e, true⟩) fun _ => trivial
    rw [if_pos hreverse]
    refine ⟨_, Edit.bind_ok (reorientEdge_eq hedge), hturned.modifyEdge _ hset fun _ => trivial,
      (hcells.turnEdge _).modifyEdge _ _, ?_⟩
    intro q
    refine (edgeAt?_changeEdge _ _ (setIn s) q).trans ?_
    have hold : ∀ q, (g.reindex.updateEdge (EdgeView.id ⟨e, true⟩) fun e => some (turned e)).restructured.edgeAt? q = _ :=
      edgeAt?_changeEdge g.reindex (EdgeView.id ⟨e, true⟩) turned
    rw [hold, hplace]
    by_cases hq : q = p
    · simp [hq, he', turned]
    · rw [if_neg (by simpa using Ne.symm hq), if_neg (by simpa using Ne.symm hq), if_neg hq]
      rfl

end Statements

/-! ## Rows -/

section Rows

variable {Fit : Contact → Edge → Prop} {spec : GridSpec} {g : Graph}

/-- A node that is said to let one pass or not. -/
def mark (isOpen : Bool) (n : Node) : Node := { n with data := n.data.set "traversable" (.bool isOpen) }

theorem mark_mark (isOpen : Bool) (n : Node) : mark isOpen (mark isOpen n) = mark isOpen n := by
  unfold mark
  rw [Bag.set_set]

/-- One graph comes of another by opening and blocking cells as `isOpen` has it. -/
structure Marks (Fit : Contact → Edge → Prop) (spec : GridSpec) (isOpen : Nat → Nat → Bool) (g g' : Graph) :
    Prop where
  lattice : Lattice Fit spec g → Lattice Fit spec g'
  start : g'.start = g.start
  goal : g'.goal = g.goal
  nodes : ∀ x y, g'.nodeAt? x y = g.nodeAt? x y ∨ g'.nodeAt? x y = (g.nodeAt? x y).map (mark (isOpen x y))

/-- A cell is said to let one pass, or not, as `isOpen` has it. -/
def Marked (isOpen : Nat → Nat → Bool) (x y : Nat) (g : Graph) : Prop :=
  (g.nodeAt? x y).map (mark (isOpen x y)) = g.nodeAt? x y

namespace Marks

variable {isOpen : Nat → Nat → Bool} {g' g'' : Graph}

theorem refl (g : Graph) : Marks Fit spec isOpen g g := ⟨id, rfl, rfl, fun _ _ => .inl rfl⟩

theorem mark_map (isOpen : Bool) (n : Option Node) : (n.map (mark isOpen)).map (mark isOpen) = n.map (mark isOpen) := by
  cases n with
  | none => rfl
  | some n => exact congrArg some (mark_mark isOpen n)

theorem trans (h : Marks Fit spec isOpen g g') (h' : Marks Fit spec isOpen g' g'') : Marks Fit spec isOpen g g'' where
  lattice hg := h'.lattice (h.lattice hg)
  start := h'.start.trans h.start
  goal := h'.goal.trans h.goal
  nodes x y := by
    rcases h.nodes x y with hfirst | hfirst
    · rw [← hfirst]
      exact h'.nodes x y
    · rcases h'.nodes x y with hsecond | hsecond
      · exact .inr (hsecond.trans hfirst)
      · refine .inr ?_
        rw [hsecond, hfirst, mark_map]

theorem marked (h : Marks Fit spec isOpen g g') {x y : Nat} (hg : Marked isOpen x y g) : Marked isOpen x y g' := by
  unfold Marked at hg ⊢
  rcases h.nodes x y with hsame | hmarked
  · rw [hsame, hg]
  · rw [hmarked, mark_map]

/-- Where a cell is marked, it is the marked cell that was there. -/
theorem nodeAt?_eq (h : Marks Fit spec isOpen g g') {x y : Nat} (hg : Marked isOpen x y g') :
    g'.nodeAt? x y = (g.nodeAt? x y).map (mark (isOpen x y)) := by
  rcases h.nodes x y with hsame | hmarked
  · unfold Marked at hg
    rw [← hsame, hg]
  · exact hmarked

end Marks

variable {isOpen : Nat → Nat → Bool}

/-- Opening or blocking a cell marks it. -/
theorem setCell_spec (h : Lattice Fit spec g) {x y : Nat} (hx : x < spec.width) (hy : y < spec.height) :
    ∃ g', setCell x y (isOpen x y) g = .ok () g' ∧ Marks Fit spec isOpen g g' ∧ Marked isOpen x y g' := by
  obtain ⟨slot, hslot⟩ := h.filled hx hy
  have hcell : Edit.check (fun g => g.cellSlot x y) g = .ok slot g :=
    Edit.check_ok (by simp [cellSlot, hslot])
  have hnodes := h.nodeAt?_modifyNode hslot (mark (isOpen x y))
  refine ⟨g.modifyNode slot (mark (isOpen x y)), Edit.bind_ok hcell, ⟨?_, rfl, rfl, ?_⟩, ?_⟩
  · intro hg
    exact hg.modifyNode slot fun _ => ⟨rfl, rfl, rfl, rfl⟩
  · intro u v
    by_cases hplace : (u, v) = (x, y)
    · obtain ⟨rfl, rfl⟩ := Prod.mk.inj hplace
      exact .inr (by rw [hnodes, if_pos rfl])
    · exact .inl (by rw [hnodes, if_neg hplace])
  · unfold Marked
    rw [hnodes, if_pos rfl, Marks.mark_map]

/-- A row marks the cells at its height. -/
theorem applyRow_spec (h : Lattice Fit spec g) {row : Line} {y : Nat} (hy : y < spec.height) (hwidth : 1 ≤ spec.width)
    (hrow : row.text =
      (" ".intercalate (rowWords ((List.range spec.width).map fun x => isOpen x y))).toList) :
    ∃ g', applyRow spec.width row y g = .ok () g' ∧ Marks Fit spec isOpen g g' ∧
      ∀ x, x < spec.width → Marked isOpen x y g' := by
  have hvalues : rowValues spec.width row = .ok ((List.range spec.width).map fun x => isOpen x y) := by
    have hne : (List.range spec.width).map (fun x => isOpen x y) ≠ [] := by
      simp only [ne_eq, List.map_eq_nil_iff, List.range_eq_nil]
      omega
    have hread := rowValues_rowWords hne hrow
    simpa using hread
  have hread : Edit.check (fun _ => rowValues spec.width row) g = .ok _ g := Edit.check_ok hvalues
  obtain ⟨g', hall, hmarks, hmarked⟩ := Edit.forM_reaches
    ((List.range spec.width).map fun x => isOpen x y).zipIdx (fun entry => setCell entry.2 y entry.1)
    (Marks Fit spec isOpen) (fun entry => Marked isOpen entry.2 y) g .refl .trans
    (fun hs hreached => hs.marked hreached)
    (by
      intro entry hentry s hs
      obtain ⟨value, x⟩ := entry
      have hget : ((List.range spec.width).map fun x => isOpen x y)[x]? = some value :=
        List.mem_zipIdx_iff_getElem?.mp hentry
      rw [List.getElem?_map, Option.map_eq_some_iff] at hget
      obtain ⟨x', hx', rfl⟩ := hget
      obtain ⟨hx, rfl⟩ : x < spec.width ∧ x = x' := by simpa [List.getElem?_eq_some_iff] using hx'
      exact setCell_spec (hs.lattice h) hx hy)
  refine ⟨g', (Edit.bind_ok hread).trans hall, hmarks, fun x hx => ?_⟩
  refine hmarked (isOpen x y, x) ?_
  simp [List.mem_zipIdx_iff_getElem?, hx]

/-- **The rows of a document open and block all cells.** -/
theorem applyRows_spec (h : Lattice Fit spec g) (headerLine : Nat) {rows : List Line} (hwidth : 1 ≤ spec.width)
    (hrows : (rows.take spec.height).map Line.text = (List.range spec.height).map fun y =>
      (" ".intercalate (rowWords ((List.range spec.width).map fun x => isOpen x y))).toList) :
    ∃ g', applyRows headerLine spec.width spec.height rows g = .ok () g' ∧ Marks Fit spec isOpen g g' ∧
      ∀ x y, x < spec.width → y < spec.height → Marked isOpen x y g' := by
  have hlength : (rows.take spec.height).length = spec.height := by
    have hcounts := congrArg List.length hrows
    simpa using hcounts
  obtain ⟨g', hall, hmarks, hmarked⟩ := Edit.forM_reaches (rows.take spec.height).zipIdx
    (fun entry => applyRow spec.width entry.1 entry.2) (Marks Fit spec isOpen)
    (fun entry s => ∀ x, x < spec.width → Marked isOpen x entry.2 s) g .refl .trans
    (fun hs hreached x hx => hs.marked (hreached x hx))
    (by
      intro entry hentry s hs
      obtain ⟨row, y⟩ := entry
      have hget := List.mem_zipIdx_iff_getElem?.mp hentry
      obtain ⟨hy, hrow⟩ := List.getElem?_eq_some_iff.mp hget
      rw [hlength] at hy
      have htext := congrArg (fun texts => texts[y]?) hrows
      simp only [List.getElem?_map, List.getElem?_range hy, Option.map_some] at htext
      rw [hget] at htext
      exact applyRow_spec (hs.lattice h) hy hwidth (Option.some.inj htext))
  refine ⟨g', ?_, hmarks, fun x y hx hy => ?_⟩
  · have henough : ¬ rows.length < spec.height := by
      rw [List.length_take] at hlength
      omega
    unfold applyRows
    rw [if_neg henough]
    exact hall
  · have hlast : y < (rows.take spec.height).length := by omega
    have hrow := List.getElem?_eq_getElem hlast
    exact hmarked (_, y) (List.mem_zipIdx_iff_getElem?.mpr hrow) x hx

end Rows

end SearchLab.Notation.Grid
