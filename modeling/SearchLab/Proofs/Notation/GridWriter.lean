import SearchLab.Proofs.Notation.GridReader

/-!
# What the document of a grid has

A header, a row for each height, the cost of diagonals, the two ends, a line for each node and each edge of which there
is something to say. Each line is put together from parts that are read back, and what has no line has nothing but what
the lattice implies.

* `text_lines_write` — the lines of the document of a lattice, in order.
-/

namespace SearchLab.Notation

theorem payload?_eq_none {data style : Bag} (h : payload? data style = none) : data = [] ∧ style = [] := by
  cases style with
  | nil => cases data <;> simp_all [payload?, withStyle]
  | cons m rest =>
      have hthere : ((data.set "style" (.object (m :: rest))).get? "style").isSome = true := by
        rw [Bag.get?_set, if_pos rfl]
        rfl
      have hempty : data.set "style" (.object (m :: rest)) = [] := by simpa [payload?, withStyle] using h
      rw [hempty] at hthere
      exact absurd hthere Bool.false_ne_true

namespace Grid

open SearchLab.Graph

variable {Fit : Contact → Edge → Prop} {spec : GridSpec} {g : Graph}

/-- Whether the cell at a place lets one pass. -/
def isOpenAt (g : Graph) (x y : Nat) : Bool := (g.nodeAt? x y).any Node.isTraversable

/-- The coordinates of a node as arguments. -/
def placeWords (n : Node) : List String := [toString n.x, toString n.y]

theorem write_placeWords (n : Node) : (placeWords n).map Argument.write = placeWords n := by
  unfold placeWords
  rw [List.map_cons, List.map_singleton, write_toString, write_toString]

/-- The row of a lattice says of each cell at its height whether it lets one pass. -/
theorem rowLine_eq (h : Lattice Fit spec g) {y : Nat} (hy : y < spec.height) :
    rowLine g spec.width y = " ".intercalate (rowWords ((List.range spec.width).map fun x => isOpenAt g x y)) := by
  unfold rowLine rowWords
  rw [List.map_map]
  congr 1
  apply List.map_congr_left
  intro x hx
  obtain ⟨slot, hslot⟩ := h.filled (List.mem_range.mp hx) hy
  obtain ⟨n, hn, -⟩ := (h.wired.arena.lookup _ _).mp hslot
  simp [isOpenAt, nodeAt?, hslot, hn]

/-- The line of a node has its coordinates, and what its data and style say. -/
theorem nodeLine?_eq_some {n : Node} {t : String} (h : nodeLine? n = some t) :
    t = joinLine ("NODE" :: (placeWords n).map Argument.write ++ [])
      (payload? (lasting n.data ["traversable"]) n.style) := by
  unfold nodeLine? at h
  split at h
  · exact absurd h (by simp)
  · rw [write_placeWords]
    exact (Option.some.inj h).symm

theorem nodeLine?_eq_none {n : Node} (h : nodeLine? n = none) :
    lasting n.data ["traversable"] = [] ∧ n.style = [] := by
  unfold nodeLine? at h
  split at h
  · rename_i hnone
    exact payload?_eq_none hnone
  · exact absurd h (by simp)

section EdgeLine

variable {d : Diagonal} {e : Edge} {m n : Node} {c : Contact} (hm : g.node? e.source = some m)
  (hn : g.node? e.target = some n) (hc : g.contact? e.source e.target = some c)

include hm hn hc

/-- The line of an edge has the coordinates of both ends, its flag, and what its data and style say. -/
theorem edgeLine?_eq_some {t : String} (h : edgeLine? g d e = some t) :
    t = joinLine ("EDGE" :: (placeWords m ++ placeWords n).map Argument.write ++ flagOptions e.bidirectional)
      (payload? (edgeData c d e.data) e.style) := by
  unfold edgeLine? at h
  simp only [hm, hn, hc] at h
  split at h
  · exact absurd h (by simp)
  · rw [List.map_append, write_placeWords, write_placeWords]
    exact (Option.some.inj h).symm

theorem edgeLine?_eq_none (h : edgeLine? g d e = none) :
    edgeData c d e.data = [] ∧ e.style = [] ∧ e.bidirectional = true := by
  unfold edgeLine? at h
  simp only [hm, hn, hc] at h
  split at h
  · rename_i hnone
    simp only [Bool.and_eq_true, Option.isNone_iff_eq_none] at hnone
    obtain ⟨hdata, hstyle⟩ := payload?_eq_none hnone.1
    exact ⟨hdata, hstyle, hnone.2⟩
  · exact absurd h (by simp)

end EdgeLine

/-- The lines of an end, if there is one. -/
def endLines (g : Graph) (word : String) (slot : Option Nat) : List String :=
  (slot.bind g.node?).toList.map fun n => joinLine (word :: (placeWords n).map Argument.write ++ []) (payload? [] [])

theorem endLines_eq (g : Graph) (word : String) (slot : Option Nat) :
    endLines g word slot = (slot.bind g.node?).toList.map fun n => joinLine [word, toString n.x, toString n.y] none := by
  unfold endLines
  apply List.map_congr_left
  intro n _
  rw [write_placeWords]
  rfl

/-- What stands behind the rows. -/
def statementLines (g : Graph) (spec : GridSpec) : List String :=
  [s!"DIAGONAL {spec.diagonal.display}"] ++ (endLines g "START" g.start ++ (endLines g "GOAL" g.goal ++
    (g.nodeList.filterMap nodeLine? ++ g.edgeList.filterMap (edgeLine? g spec.diagonal))))

theorem write_eq (hgrid : g.grid = some spec) :
    write g = "\n".intercalate
      (s!"GRID {spec.width}x{spec.height}" :: ((List.range spec.height).map (rowLine g spec.width) ++
        statementLines g spec)) := by
  unfold write statementLines
  rw [hgrid, endLines_eq, endLines_eq]
  simp only [List.append_assoc, List.cons_append, List.nil_append]

/-- Every line of the document stays as it is when it is trimmed. -/
theorem trimmed_statementLines (h : Lattice Fit spec g)
    (hdiagonal : Trimmed s!"DIAGONAL {spec.diagonal.display}".toList) :
    ∀ t ∈ statementLines g spec, Trimmed t.toList := by
  intro t ht
  have hend : ∀ word slot, ReadsAsCommand word → t ∈ endLines g word slot → Trimmed t.toList := by
    intro word slot hword ht
    obtain ⟨n, _, rfl⟩ := List.mem_map.mp ht
    exact trimmed_written (placeWords n) hword (by simp)
  simp only [statementLines, List.mem_append, List.mem_singleton] at ht
  rcases ht with rfl | ht | ht | ht | ht
  · exact hdiagonal
  · exact hend "START" g.start (by decide) ht
  · exact hend "GOAL" g.goal (by decide) ht
  · obtain ⟨n, _, hline⟩ := List.mem_filterMap.mp ht
    rw [nodeLine?_eq_some hline]
    exact trimmed_written (placeWords n) (by decide) (by simp)
  · obtain ⟨e, he, hline⟩ := List.mem_filterMap.mp ht
    obtain ⟨p, hp⟩ := mem_edgeList.mp he
    obtain ⟨m, hm⟩ := live_iff.mp (h.wired.arena.ends hp).1
    obtain ⟨n, hn⟩ := live_iff.mp (h.wired.arena.ends hp).2
    obtain ⟨c, hc, _⟩ := h.wired.fits hp
    rw [edgeLine?_eq_some hm hn hc hline]
    exact trimmed_written (placeWords m ++ placeWords n) (by decide) (readsAsOption_flag e.bidirectional)

/-- **The lines of the document of a lattice** are the header, the rows and the statements. -/
theorem text_lines_write (h : Lattice Fit spec g) (hwidth : 1 ≤ spec.width)
    (hdiagonal : Trimmed s!"DIAGONAL {spec.diagonal.display}".toList) :
    (lines (write g)).map Line.text =
      s!"GRID {spec.width}x{spec.height}".toList ::
        (((List.range spec.height).map fun y =>
          (" ".intercalate (rowWords ((List.range spec.width).map fun x => isOpenAt g x y))).toList) ++
        (statementLines g spec).map String.toList) := by
  have hrow : ∀ t ∈ (List.range spec.height).map (rowLine g spec.width), Trimmed t.toList := by
    intro t ht
    obtain ⟨y, hy, rfl⟩ := List.mem_map.mp ht
    rw [rowLine_eq h (List.mem_range.mp hy)]
    refine Trimmed.intercalate ?_ ?_
    · simp only [rowWords, ne_eq, List.map_eq_nil_iff, List.range_eq_nil]
      omega
    · intro w hw
      obtain ⟨isOpen, _, rfl⟩ := List.mem_map.mp hw
      cases isOpen
      · exact Trimmed.of_word (by decide)
      · exact Trimmed.of_word (by decide)
  have hrows : (List.range spec.height).map (rowLine g spec.width) = (List.range spec.height).map fun y =>
      " ".intercalate (rowWords ((List.range spec.width).map fun x => isOpenAt g x y)) :=
    List.map_congr_left fun y hy => rowLine_eq h (List.mem_range.mp hy)
  have htrimmed : ∀ t ∈ s!"GRID {spec.width}x{spec.height}" ::
      ((List.range spec.height).map (rowLine g spec.width) ++ statementLines g spec), Trimmed t.toList := by
    intro t ht
    rcases List.mem_cons.mp ht with rfl | ht
    · exact trimmed_header spec.width spec.height
    · rcases List.mem_append.mp ht with ht | ht
      · exact hrow t ht
      · exact trimmed_statementLines h hdiagonal t ht
  rw [write_eq h.grid, text_lines_intercalate (List.cons_ne_nil _ _) fun t ht => .inr (htrimmed t ht)]
  rw [List.filter_eq_self.mpr]
  · rw [List.map_cons, List.map_append, hrows, List.map_map]
    rfl
  · intro cs hcs
    obtain ⟨t, ht, rfl⟩ := List.mem_map.mp hcs
    simpa using (htrimmed t ht).ne_nil

end Grid

end SearchLab.Notation
