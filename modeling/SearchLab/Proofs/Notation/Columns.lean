import SearchLab.Proofs.Notation.Statement

/-!
# Where the parts of a line stand

A line that is put together of a command, arguments, options and data is read as a statement of just these. The column
that is noted of an argument is the one where its written form starts: behind the command, the arguments before it and
one blank.

    NODE "a b" -b
         ^ column 6

* `readsAsOption_iff` — which words are options;
* `placed_eq_mapIdx` — the columns in which arguments are read are those where they were written;
* `reading_undoes_writing` — what is read of a line that was put together.
-/

namespace SearchLab.Notation

/-! ## Options -/

/-- What the name of an option is made of, apart from dashes. -/
def isNameChar (c : Char) : Bool := c.isAlphanum || c == '_'

/-- How an option is spelled: one or more dashes, then a letter, a digit or an underscore, then any of these and of
dashes. The second character is no digit: with one, the word would be a number. -/
def SpellsOption (word : List Char) : Prop :=
  (∃ dashes first rest, word = List.replicate (dashes + 1) '-' ++ first :: rest ∧ isNameChar first = true ∧
    ∀ c ∈ rest, c = '-' ∨ isNameChar c = true) ∧
  ∀ c, word[1]? = some c → c.isDigit = false

theorem ne_dash_of_isNameChar {c : Char} (h : isNameChar c = true) : c ≠ '-' := by
  rintro rfl
  exact absurd h (by decide)

theorem optionChar_iff (c : Char) :
    (c.isAlphanum || c == '-' || c == '_') = true ↔ c = '-' ∨ isNameChar c = true := by
  simp only [isNameChar, Bool.or_eq_true, beq_iff_eq]
  rw [or_assoc, or_left_comm]

/-- What follows the dashes of an option. -/
theorem isOption_iff (word : List Char) :
    isOption word = true ↔ ∃ first rest, word.dropWhile (· == '-') = first :: rest ∧
      ∀ c ∈ first :: rest, c = '-' ∨ isNameChar c = true := by
  rw [isOption]
  generalize word.dropWhile (· == '-') = name
  cases name with
  | nil => simp
  | cons first rest =>
      simp only [Bool.and_eq_true, List.all_eq_true, optionChar_iff]
      constructor
      · intro h
        exact ⟨first, rest, rfl, h.2⟩
      · rintro ⟨first', rest', heq, h⟩
        exact ⟨rfl, heq ▸ h⟩

/-- The words that are read as options are just those that are spelled as such. -/
theorem readsAsOption_iff (word : List Char) : ReadsAsOption word ↔ SpellsOption word := by
  constructor
  · rintro ⟨rest, rfl, hnumber, hoption⟩
    obtain ⟨first, more, hname, hall⟩ := (isOption_iff _).mp hoption
    rw [List.dropWhile_cons_of_pos rfl] at hname
    obtain ⟨dashes, hshape⟩ : ∃ dashes, rest = List.replicate dashes '-' ++ first :: more := by
      have hdashes : ∀ c ∈ rest.takeWhile (· == '-'), c = '-' := fun c hc => by
        simpa using List.mem_takeWhile_imp hc
      refine ⟨(rest.takeWhile (· == '-')).length, ?_⟩
      rw [← List.eq_replicate_of_mem hdashes, ← hname, List.takeWhile_append_dropWhile]
    have hfirst : first ≠ '-' := by
      have hhead := List.head?_dropWhile_not (· == '-') rest
      rw [hname] at hhead
      simpa using hhead
    refine ⟨⟨dashes, first, more, ?_, (hall first List.mem_cons_self).resolve_left hfirst,
      fun c hc => hall c (List.mem_cons_of_mem first hc)⟩, ?_⟩
    · rw [List.replicate_succ, List.cons_append, ← hshape]
    · intro c hc
      obtain ⟨behind, rfl⟩ : ∃ behind, rest = c :: behind := by
        cases rest with
        | nil => cases hc
        | cons d behind => exact ⟨behind, by rw [Option.some.inj hc]⟩
      by_cases hpoint : c = '.'
      · rw [hpoint]
        decide
      · rw [← startsNumber_cons hpoint behind, hnumber]
  · rintro ⟨⟨dashes, first, more, rfl, hfirst, hmore⟩, hsecond⟩
    have hname : (List.replicate (dashes + 1) '-' ++ first :: more).dropWhile (· == '-') = first :: more := by
      rw [List.dropWhile_append_of_pos (by simp),
        List.dropWhile_cons_of_neg (by simpa using ne_dash_of_isNameChar hfirst)]
    refine ⟨List.replicate dashes '-' ++ first :: more, by rw [List.replicate_succ, List.cons_append], ?_,
      (isOption_iff _).mpr ⟨first, more, hname, List.forall_mem_cons.mpr ⟨.inr hfirst, hmore⟩⟩⟩
    cases dashes with
    | zero =>
        have hpoint : first ≠ '.' := by
          rintro rfl
          exact absurd hfirst (by decide)
        rw [List.replicate_zero, List.nil_append, startsNumber_cons hpoint]
        exact hsecond first (by simp)
    | succ n =>
        rw [List.replicate_succ, List.cons_append, startsNumber_cons (by decide)]
        rfl

/-! ## Columns -/

/-- The line that is put together of a command, arguments, options, data and a style. -/
def lineOf (command : String) (values options : List String) (data style : Bag) : String :=
  joinLine (command :: values.map Argument.write ++ options) (payload? data style)

/-- The column where an argument starts: one blank behind the command and the arguments before it. -/
def columnOf (command : String) (before : List String) : Nat :=
  (joinLine (command :: before.map Argument.write) none).length + 2

theorem columnOf_eq (command : String) (before : List String) :
    columnOf command before =
      command.length + (spaced (before.map fun value => Argument.writeChars value.toList)).length + 2 := by
  rw [columnOf, ← String.length_toList, toList_joinLine, List.length_append, String.length_toList]
  simp [Argument.write, Function.comp_def]

theorem columnOf_append (command : String) (before : List String) (value : String) :
    columnOf command (before ++ [value]) = columnOf command before + (Argument.writeChars value.toList).length + 1 := by
  rw [columnOf_eq, columnOf_eq, List.map_append, spaced_append, List.length_append]
  simp only [spaced, List.map_cons, List.map_nil, List.flatMap_cons, List.flatMap_nil, List.length_append,
    List.length_cons, List.length_nil]
  omega

/-- Arguments are read in the columns where they start. -/
theorem placed_eq_mapIdx (command : String) (before values : List String) :
    placed (columnOf command before) (values.map String.toList) =
      values.mapIdx fun i value => ⟨value, columnOf command (before ++ values.take i)⟩ := by
  induction values generalizing before with
  | nil => rfl
  | cons value rest ih =>
      have hrest := ih (before ++ [value])
      rw [columnOf_append] at hrest
      simp [placed, hrest]

/-- In the column of an argument there stands its written form. -/
theorem write_prefix_drop (command : String) (before : List String) (value : String) (behind options : List String)
    (data style : Bag) :
    (Argument.write value).toList <+:
      (lineOf command (before ++ value :: behind) options data style).toList.drop (columnOf command before - 1) := by
  have hline : (lineOf command (before ++ value :: behind) options data style).toList =
      (command.toList ++ spaced (before.map fun value => Argument.writeChars value.toList) ++ [' ']) ++
        ((Argument.write value).toList ++
          spaced ((behind.map Argument.write ++ options ++ (payload? data style).toList).map String.toList)) := by
    rw [lineOf, List.cons_append, toList_joinLine]
    simp [spaced, Argument.write, Function.comp_def]
  have hcolumn : columnOf command before - 1 =
      (command.toList ++ spaced (before.map fun value => Argument.writeChars value.toList) ++ [' ']).length := by
    rw [columnOf_eq, List.length_append, List.length_append, String.length_toList, List.length_singleton]
    omega
  rw [hline, hcolumn, List.drop_left]
  exact List.prefix_append _ _

/-- **Reading undoes writing.** A line that was put together of a command, arguments of any characters, options, data
without a style and a style is read as a statement of just these, as long as the written form of the data reads back. Of
each argument the column is noted where its written form starts. -/
theorem reading_undoes_writing (number : Nat) {command : String} {values options : List String} {data style : Bag}
    (hcommand : ReadsAsCommand command) (hvalues : values ≠ []) (hoptions : ∀ o ∈ options, SpellsOption o.toList)
    (hdata : data.get? "style" = none) (hread : (withStyle data style).ReadsBack) :
    ∃ args : List Arg, args = values.mapIdx (fun i value => ⟨value, columnOf command (values.take i)⟩) ∧
      (∀ a ∈ args, (Argument.write a.value).toList <+:
        (lineOf command values options data style).toList.drop (a.column - 1)) ∧
      Statement.ofLine? ⟨number, (lineOf command values options data style).toList⟩ =
        .ok (some { line := number, command, args, options, data, style }) := by
  refine ⟨_, rfl, ?_, ?_⟩
  · intro a ha
    obtain ⟨i, hi, rfl⟩ := List.mem_mapIdx.mp ha
    have hsplit : values = values.take i ++ values[i] :: values.drop (i + 1) := by
      rw [List.getElem_cons_drop, List.take_append_drop]
    have hstands := write_prefix_drop command (values.take i) values[i] (values.drop (i + 1)) options data style
    rwa [← hsplit] at hstands
  · have hstatement := ofLine?_joinLine number hcommand hvalues
      (fun o ho => (readsAsOption_iff o.toList).mpr (hoptions o ho)) hread
    have hcolumns := placed_eq_mapIdx command [] values
    rw [columnOf_eq] at hcolumns
    rw [reread_of_plain style hdata] at hstatement
    rw [lineOf, hstatement]
    simpa [spaced] using hcolumns

/-- A line whose arguments are empty, or look like an option, a quote, data or a comment. -/
theorem reading_undoes_writing_sample :
    Statement.ofLine? ⟨7, (lineOf "NODE" ["", "-x", "a b", "\"", "\n", "\x7b", "#"] ["-b", "--long_1"]
      [("label", .text "A")] [("color", .text "red")]).toList⟩ =
        .ok (some
          { line := 7, command := "NODE",
            args := [⟨"", 6⟩, ⟨"-x", 9⟩, ⟨"a b", 14⟩, ⟨"\"", 20⟩, ⟨"\n", 25⟩, ⟨"\x7b", 30⟩, ⟨"#", 34⟩],
            options := ["-b", "--long_1"], data := [("label", .text "A")], style := [("color", .text "red")] }) := by
  have hoptions : ∀ o ∈ ["-b", "--long_1"], SpellsOption o.toList := by
    intro o ho
    simp only [List.mem_cons, List.not_mem_nil, or_false] at ho
    rcases ho with rfl | rfl
    · exact (readsAsOption_iff _).mp ⟨['b'], rfl, rfl, rfl⟩
    · exact (readsAsOption_iff _).mp ⟨"-long_1".toList, rfl, rfl, rfl⟩
  have hvalues : ["", "-x", "a b", "\"", "\n", "\x7b", "#"] ≠ [] := List.cons_ne_nil _ _
  have hback : (withStyle [("label", .text "A")] [("color", .text "red")]).ReadsBack := by
    unfold Bag.ReadsBack
    rfl
  obtain ⟨args, hargs, -, hread⟩ :=
    reading_undoes_writing 7 (by decide : ReadsAsCommand "NODE") hvalues hoptions rfl hback
  rw [hread, hargs]
  simp only [columnOf_eq]
  rfl

end SearchLab.Notation
