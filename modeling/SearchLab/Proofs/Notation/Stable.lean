import SearchLab.Proofs.Decimal.Reread
import SearchLab.Proofs.Notation.Again

/-!
# Documents that stay as they are

Every document that was read leads to a graph, and the graph to a document of its own. That one is read again, and then
written as it is, with two exceptions. A cost of diagonals may be minus infinity; between quotes that is an argument,
but it is written bare, and what starts with a dash and a letter is an option. And where data have a member `style` that
is no object and a style besides, the style is written in the place of this member and read from there, but written
behind all others the next time.

* `spelt` — every other cost of diagonals is read again;
* `refused` — no document with a cost of minus infinity is read;
* `written_again` — which documents are read, and which stay as they are.
-/

namespace SearchLab.Notation

open SearchLab.Graph

namespace Grid

/-! ## The cost of diagonals -/

/-- The only cost of diagonals that is not read as it is written. -/
def minusInfinity : Float := -(1.0 / 0.0)

/-- Every number but one that is the cost of diagonals leads back to itself. -/
theorem spelt {d : Diagonal} (hnan : d.value.isNaN = false) (hd : d.value ≠ minusInfinity) : Spelt d := by
  cases hinf : d.value.isInf with
  | false => exact spelt_of_finite ⟨hnan, hinf⟩ (Decimal.number?_write hnan hinf)
  | true =>
      have hvalue : d.value = 1.0 / 0.0 := (Double.eq_infinity hnan hinf).resolve_right hd
      have hsame : d.display = (Diagonal.custom (1.0 / 0.0)).display := display_congr hvalue
      have hdisplay : d.display = "inf" := by
        rw [hsame]
        decide
      have hread : Diagonal.ofText? "inf" = some (.ofValue (1.0 / 0.0)) :=
        Diagonal.ofText?_of_number (Diagonal.map_toLower_of_all (by decide)) (by decide) rfl (by decide)
      refine ⟨?_, .ofValue (1.0 / 0.0), ?_, ?_⟩
      · rw [hdisplay]
        exact readsBare_of_isPlain (by decide)
      · rw [hdisplay, hread]
      · rw [Diagonal.value_ofValue, hvalue]

/-- A cost of minus infinity is written as an option. -/
theorem toList_display_minusInfinity {d : Diagonal} (hd : d.value = minusInfinity) :
    d.display.toList = "-inf".toList := by
  have hsame : d.display = (Diagonal.custom minusInfinity).display := display_congr hd
  rw [hsame]
  decide

theorem readsAsOption_minusInfinity : ReadsAsOption "-inf".toList := ⟨"inf".toList, by decide, by decide, by decide⟩

/-- The line of a cost of minus infinity is no statement. -/
theorem applyLine_minusInfinity {d : Diagonal} (hd : d.value = minusInfinity) {line : Line}
    (hline : line.text = s!"DIAGONAL {d.display}".toList) (g : Graph) : ∃ e t, applyLine line g = .error e t := by
  have hrefused := ofLine?_option line.number (by decide : ReadsAsCommand "DIAGONAL") readsAsOption_minusInfinity
  rw [← toList_display_minusInfinity hd, ← toList_diagonalLine, ← hline] at hrefused
  exact ⟨_, g, Edit.bind_error (Edit.check_error hrefused)⟩

/-- **A grid with a cost of minus infinity is not read again.** -/
theorem refused {Fit : Contact → Edge → Prop} {spec : GridSpec} {g : Graph} (hg : Lattice Fit spec g)
    (hspec : Sized spec) (hd : spec.diagonal.value = minusInfinity) (r : Graph) :
    Notation.read (Notation.write g) ≠ .ok r := by
  have hwrite : Notation.write g = write g := by simp [Notation.write, isGrid, hg.grid]
  have htrimmed : Trimmed s!"DIAGONAL {spec.diagonal.display}".toList := by
    rw [toList_diagonalLine, toList_display_minusInfinity hd]
    have hblank : '\n' ∉ [' '] := by decide
    have hcommand : ReadsAsCommand "DIAGONAL" := by decide
    simpa using Trimmed.around hcommand.trimmed readsAsOption_minusInfinity.trimmed hblank
  obtain ⟨header, body, hlines, hheader, hbody⟩ := List.map_eq_cons_iff.mp (text_lines_write hg hspec.width.1 htrimmed)
  obtain ⟨rows, statements, rfl, hrows, hstatements⟩ := List.map_eq_append_iff.mp hbody
  have hcount : rows.length = spec.height := by
    have hlengths := congrArg List.length hrows
    simpa using hlengths
  have hdrop : (rows ++ statements).drop spec.height = statements := by rw [← hcount, List.drop_left]
  unfold statementLines at hstatements
  obtain ⟨line, others, rfl, hline, -⟩ := List.map_eq_cons_iff.mp hstatements
  obtain ⟨new, hnew, -⟩ := lattice_ofGrid spec.width spec.height (completable_blank .disabled)
  intro hread
  rw [hwrite, Notation.read, hlines] at hread
  simp only [ofLine_header hheader hspec.width hspec.height] at hread
  unfold read at hread
  simp only [hnew, hdrop] at hread
  cases happly : applyRows header.number spec.width spec.height (rows ++ line :: others) new with
  | error e t =>
      rw [Edit.bind_error happly] at hread
      cases hread
  | ok u t =>
      obtain ⟨e, t', hfails⟩ := Edit.forM_fails (List.mem_cons_self (a := line) (l := others))
        (applyLine_minusInfinity hd hline) t
      rw [Edit.bind_ok happly, hfails] at hread
      cases hread

end Grid

/-! ## Any document -/

/-- **Documents of documents.** Let a document be read whose data read back. The document of its graph is read exactly
if the cost of diagonals is not minus infinity; and whatever is read of it is written as it is, where no style is
written in the place of a member in front of others. -/
theorem written_again {text : String} {g : Graph} (hread : read text = .ok g)
    (hback : ∀ p ∈ written g, (withStyle p.1 p.2).ReadsBack) :
    ((∃ r, read (write g) = .ok r) ↔ ∀ spec, g.grid = some spec → spec.diagonal.value ≠ Grid.minusInfinity) ∧
      (StylesLast g → ∀ r, read (write g) = .ok r → write r = write g) := by
  have hfinite : (∃ r, read (write g) = .ok r) →
      ∀ spec, g.grid = some spec → spec.diagonal.value ≠ Grid.minusInfinity := by
    rintro ⟨r, hr⟩ spec hspec hd
    obtain ⟨hlattice, hsized, -⟩ := lattice_of_read hread hspec
    exact Grid.refused hlattice hsized hd r hr
  have hagain : (∀ spec, g.grid = some spec → spec.diagonal.value ≠ Grid.minusInfinity) →
      ∃ r, read (write g) = .ok r ∧ (StylesLast g → write r = write g) := fun hd =>
    write_again hread hback fun spec hspec => Grid.spelt (lattice_of_read hread hspec).2.2 (hd spec hspec)
  refine ⟨⟨hfinite, fun hd => ?_⟩, fun hlast r hr => ?_⟩
  · obtain ⟨r, hr, -⟩ := hagain hd
    exact ⟨r, hr⟩
  · obtain ⟨r', hr', hwritten⟩ := hagain (hfinite ⟨r, hr⟩)
    rw [hr] at hr'
    cases hr'
    exact hwritten hlast

/-! ## Two cells side by side -/

/-- Two cells side by side, and what diagonals would cost. -/
def sideBySide (d : Diagonal) : Graph :=
  { Grid.sampleGrid with
    grid := some ⟨2, 1, d⟩
    nodes := #[some { slot := 0, id := "0_0", data := [("traversable", .bool true)] },
      some { slot := 1, id := "1_0", x := 1, data := [("traversable", .bool true)] }] }

theorem applyRows_sideBySide (line : Line) :
    Grid.applyRows 1 2 1 [⟨2, "1 1".toList⟩, line] Grid.sampleGrid = .ok () (sideBySide .disabled) := by
  have hleft : cellId 0 0 = "0_0" := by decide
  have hright : cellId 1 0 = "1_0" := by decide
  have hvalues : Edit.check (fun _ => Grid.rowValues 2 ⟨2, "1 1".toList⟩) Grid.sampleGrid =
      .ok [true, true] Grid.sampleGrid := Edit.check_ok rfl
  have hrow : Grid.applyRow 2 ⟨2, "1 1".toList⟩ 0 Grid.sampleGrid =
      ([true, true].zipIdx.forM fun cell => Grid.setCell cell.2 0 cell.1) Grid.sampleGrid := Edit.bind_ok hvalues
  have hcells : ([true, true].zipIdx.forM fun cell => Grid.setCell cell.2 0 cell.1) Grid.sampleGrid =
      .ok () (sideBySide .disabled) := by
    simp [List.zipIdx, List.forM_cons, bind, EStateM.bind, pure, EStateM.pure, Grid.setCell, Edit.check, cellSlot,
      slot?, hleft, hright, Grid.sampleGrid, sideBySide, Std.HashMap.getElem_insert, Edit.modify_ok, modifyNode,
      Bag.set, Json.store]
  exact Edit.bind_ok (hrow.trans hcells)

theorem setDiagonal_sideBySide (d d' : Diagonal) : Graph.setDiagonal d (sideBySide d') = .ok () (sideBySide d) := by
  have hleft : cellId 0 0 = "0_0" := by decide
  have hright : cellId 1 0 = "1_0" := by decide
  have hbeside : neighbours 2 1 0 0 = [⟨1, 0, false⟩] := by decide
  have hbeside' : neighbours 2 1 1 0 = [⟨0, 0, false⟩] := by decide
  simp [Graph.setDiagonal, sideBySide, Grid.sampleGrid, gridSpec, bind, EStateM.bind, pure, EStateM.pure,
    completeAllEdges, nodeList, completeEdges, node?, hbeside, hbeside', completeEdge, cellSlot, slot?, hleft, hright,
    between, leaving, passable, incident, currentIndex, reindex, Adjacency.entries, Adjacency.add, view?, edge?, place?,
    Adjacency.push, Adjacency.setEntries, Std.HashMap.getElem_insert, Std.HashMap.getD_insert, EdgeId.reversed,
    EdgeId.isReverse, EdgeView.target, redraw]

/-- A header, a row and the line of a cost. -/
theorem read_sideBySide {text : String} {line : Line} {s : Statement} {arg : Arg} {d : Diagonal}
    (hlines : lines text = [⟨1, "GRID 2x1".toList⟩, ⟨2, "1 1".toList⟩, line])
    (hline : Statement.ofLine? line = .ok (some s)) (hcommand : s.command = "DIAGONAL") (hargs : s.args = [arg])
    (hd : Diagonal.ofText? arg.value = some d) : read text = .ok (sideBySide d) := by
  have hheader : Header.ofLine ⟨1, "GRID 2x1".toList⟩ = .ok (.grid 2 1) := rfl
  have hset : Grid.applyLine line (sideBySide .disabled) = .ok () (sideBySide d) := by
    rw [Grid.applyLine_of_statement hline, Grid.apply_diagonal hcommand hargs hd, setDiagonal_sideBySide]
  have hstatements : [line].forM Grid.applyLine (sideBySide .disabled) = .ok () (sideBySide d) := Edit.bind_ok hset
  unfold read
  rw [hlines]
  simp only [hheader]
  exact Grid.read_of_parts Grid.ofGrid_sample (applyRows_sideBySide line) hstatements

/-- Of two cells side by side there is nothing to say. -/
theorem written_sideBySide (d : Diagonal) : written (sideBySide d) = [([], []), ([], []), ([], [])] := by
  unfold written
  rfl

theorem written_again_sample :
    ∃ g, read "GRID 2x1\n1 1\nDIAGONAL +1.50" = .ok g ∧
      ∃ r, read (write g) = .ok r ∧ write r = write g := by
  have hline := ofLine?_word 3 (by decide : ReadsAsCommand "DIAGONAL")
    (readsBare_of_isPlain (by decide : Argument.isPlain "+1.50".toList = true))
  have hnumber : Decimal.number? "+1.50" = some 1.5 := by decide +kernel
  have hd : Diagonal.ofText? "+1.50" = some (.ofValue 1.5) :=
    Diagonal.ofText?_of_number (Diagonal.map_toLower_of_all (by decide)) (by decide) hnumber (by decide +kernel)
  have hread : read "GRID 2x1\n1 1\nDIAGONAL +1.50" = .ok (sideBySide (.ofValue 1.5)) :=
    read_sideBySide rfl hline rfl rfl hd
  have hnothing : ∀ p ∈ written (sideBySide (.ofValue 1.5)), p = ([], []) := by simp [written_sideBySide]
  obtain ⟨hagain, hsame⟩ := written_again hread fun p hp => by
    rw [hnothing p hp]
    unfold Bag.ReadsBack
    rfl
  obtain ⟨r, hr⟩ := hagain.mpr fun spec hspec => by
    cases hspec
    rw [Diagonal.value_ofValue]
    unfold Grid.minusInfinity
    decide +kernel
  refine ⟨_, hread, r, hr, hsame (fun p hp => ?_) r hr⟩
  rw [hnothing p hp]
  exact fun h => absurd rfl h

/-- **A cost of minus infinity**, between quotes, is read and not read again, though there are no data at all. -/
theorem minusInfinity_is_not_read_again :
    ∃ g, read "GRID 2x1\n1 1\nDIAGONAL \"-inf\"" = .ok g ∧ (∀ p ∈ written g, p = ([], [])) ∧
      ∀ r, read (write g) ≠ .ok r := by
  have hline := ofLine?_joinLine 3 (by decide : ReadsAsCommand "DIAGONAL") (by decide : ["-inf"] ≠ [])
    (by simp : ∀ o ∈ ([] : List String), ReadsAsOption o.toList)
    (by unfold Bag.ReadsBack; rfl : (withStyle [] []).ReadsBack)
  have hd : Diagonal.ofText? "-inf" = some (.ofValue Grid.minusInfinity) :=
    Diagonal.ofText?_of_number (Diagonal.map_toLower_of_all (by decide)) (by decide) rfl (by decide)
  have hread : read "GRID 2x1\n1 1\nDIAGONAL \"-inf\"" = .ok (sideBySide (.ofValue Grid.minusInfinity)) :=
    read_sideBySide rfl hline rfl rfl hd
  obtain ⟨hlattice, hsized, -⟩ := lattice_of_read hread rfl
  exact ⟨_, hread, by simp [written_sideBySide], Grid.refused hlattice hsized (Diagonal.value_ofValue Grid.minusInfinity)⟩

end SearchLab.Notation
