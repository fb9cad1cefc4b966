import SearchLab.Notation.Grid
import SearchLab.Proofs.Graph.Diagonal
import SearchLab.Proofs.Notation.Statement

/-!
# The lines of a grid document

The header is read back as the two sizes, a row of ones and zeros as what it says of each cell, and coordinates as the
numbers they were written for. The cost of diagonals may start with a minus, which makes it no option as long as a
digit follows.

* `ofLine_header`, `rowValues_rowWords`, `coordinate_toString`, `spelt_of_finite`.
-/

namespace SearchLab.Notation.Grid

open Text

/-! ## Numbers and words -/

/-- A digit is no character outside the range of digits. -/
theorem ne_of_isDigit {c : Char} (hc : c.isDigit = true) (d : Char) (hd : d.toNat < 48 ∨ 57 < d.toNat) : c ≠ d := by
  rintro rfl
  have hrange := Decimal.toNat_of_isDigit hc
  omega

theorem not_isBlank_of_mem_toDigits (n : Nat) : ∀ c ∈ Nat.toDigits 10 n, isBlank c = false := by
  intro c hc
  refine not_isBlank_of_isAlphanum ?_
  simp [Char.isAlphanum, Decimal.isDigit_of_mem_toDigits hc]

theorem trimmed_toDigits (n : Nat) : Trimmed (Nat.toDigits 10 n) :=
  Trimmed.of_all Nat.toDigits_ne_nil (not_isBlank_of_mem_toDigits n)

/-- A number is written as it is. -/
theorem write_toString (n : Nat) : Argument.write (toString n) = toString n := by
  have hplain : Argument.isPlain (Nat.toDigits 10 n) = true := by
    obtain ⟨d, ds, hdigits⟩ := List.exists_cons_of_ne_nil (Nat.toDigits_ne_nil (n := n) (b := 10))
    have hfirst : d.isDigit = true := Decimal.isDigit_of_mem_toDigits (hdigits ▸ List.mem_cons_self)
    have hdash : d ≠ '-' := ne_of_isDigit hfirst '-' (by decide)
    have hall : (Nat.toDigits 10 n).all (fun c =>
        !(isBlank c || isControl c || c == '"' || c == '\x7b' || c == '\\')) = true := by
      rw [List.all_eq_true]
      intro c hc
      have hdigit := Decimal.isDigit_of_mem_toDigits hc
      have hrange := Decimal.toNat_of_isDigit hdigit
      have hcontrol : isControl c = false := by
        simp only [isControl, Bool.or_eq_false_iff, Bool.and_eq_false_iff, decide_eq_false_iff_not]
        omega
      simp [not_isBlank_of_mem_toDigits n c hc, hcontrol, ne_of_isDigit hdigit '"' (by decide),
        ne_of_isDigit hdigit '\x7b' (by decide), ne_of_isDigit hdigit '\\' (by decide)]
    unfold Argument.isPlain
    rw [hall, hdigits]
    simp [hdash]
  rw [Argument.write, Argument.writeChars, Nat.toString_eq_ofList_toDigits, String.toList_ofList, if_pos hplain]

/-- A coordinate is read back. -/
theorem coordinate_toString {n : Nat} (h : n ≤ Decimal.maxCount) (s : Statement) {arg : Arg}
    (harg : arg.value = toString n) (phase : String) : coordinate s arg phase = .ok n := by
  have hvalue : Decimal.natural? arg.value.toList = some n := by
    rw [harg, Nat.toString_eq_ofList_toDigits, String.toList_ofList]
    exact Decimal.natural?_toDigits h
  unfold coordinate
  rw [hvalue]

/-! ## The header -/

theorem toList_header (width height : Nat) :
    s!"GRID {width}x{height}".toList =
      "GRID".toList ++ ' ' :: (Nat.toDigits 10 width ++ 'x' :: Nat.toDigits 10 height) := by
  simp
  rfl

theorem trimmed_header (width height : Nat) : Trimmed s!"GRID {width}x{height}".toList := by
  have hshape : s!"GRID {width}x{height}".toList =
      "GRID".toList ++ (' ' :: (Nat.toDigits 10 width ++ ['x'])) ++ Nat.toDigits 10 height := by
    rw [toList_header]
    simp
  rw [hshape]
  refine Trimmed.around (Trimmed.of_word (by decide)) (trimmed_toDigits height) ?_
  have hflat := (trimmed_toDigits width).flat
  simp [hflat]

/-- The header is read back. -/
theorem ofLine_header {line : Line} {width height : Nat} (hline : line.text = s!"GRID {width}x{height}".toList)
    (hwidth : 1 ≤ width ∧ width ≤ Decimal.maxCount) (hheight : 1 ≤ height ∧ height ≤ Decimal.maxCount) :
    Header.ofLine line = .ok (.grid width height) := by
  have hsize : ∀ {n : Nat}, 1 ≤ n ∧ n ≤ Decimal.maxCount → dimension? (Nat.toDigits 10 n) = some n := by
    intro n hn
    unfold dimension?
    rw [(trimmed_toDigits n).trim_eq, Decimal.natural?_toDigits hn.2]
    cases n with
    | zero => exact absurd hn.1 (by decide)
    | succ n => rfl
  have htrimmed : Trimmed (Nat.toDigits 10 width ++ 'x' :: Nat.toDigits 10 height) := by
    have hshape : Nat.toDigits 10 width ++ 'x' :: Nat.toDigits 10 height =
        Nat.toDigits 10 width ++ ['x'] ++ Nat.toDigits 10 height := by simp
    rw [hshape]
    exact Trimmed.around (trimmed_toDigits width) (trimmed_toDigits height) (by decide)
  have htake : ("GRID".toList ++ ' ' :: (Nat.toDigits 10 width ++ 'x' :: Nat.toDigits 10 height)).takeWhile
      (fun c => !isBlank c) = "GRID".toList := by
    rw [List.takeWhile_append_of_pos (List.all_eq_true.mp (by decide)), List.takeWhile_cons_of_neg (by decide),
      List.append_nil]
  have hdrop : ("GRID".toList ++ ' ' :: (Nat.toDigits 10 width ++ 'x' :: Nat.toDigits 10 height)).dropWhile
      (fun c => !isBlank c) = ' ' :: (Nat.toDigits 10 width ++ 'x' :: Nat.toDigits 10 height) := by
    rw [List.dropWhile_append_of_pos (List.all_eq_true.mp (by decide)), List.dropWhile_cons_of_neg (by decide)]
  have hrest : trim (' ' :: (Nat.toDigits 10 width ++ 'x' :: Nat.toDigits 10 height)) =
      Nat.toDigits 10 width ++ 'x' :: Nat.toDigits 10 height := by
    have hskip : trim (' ' :: (Nat.toDigits 10 width ++ 'x' :: Nat.toDigits 10 height)) =
        trim (Nat.toDigits 10 width ++ 'x' :: Nat.toDigits 10 height) := by
      rw [trim, trim, List.dropWhile_cons_of_pos (by decide)]
    rw [hskip, htrimmed.trim_eq]
  have hnotimes : ∀ n : Nat, ∀ c ∈ Nat.toDigits 10 n, isTimes c = false := by
    intro n c hc
    have hdigit := Decimal.isDigit_of_mem_toDigits hc
    simp [isTimes, ne_of_isDigit hdigit 'x' (by decide), ne_of_isDigit hdigit 'X' (by decide),
      ne_of_isDigit hdigit '×' (by decide)]
  have hsplit : (Nat.toDigits 10 width ++ 'x' :: Nat.toDigits 10 height).splitOnP isTimes =
      [Nat.toDigits 10 width, Nat.toDigits 10 height] := by
    rw [List.splitOnP_append_cons_of_forall_mem (hnotimes width) 'x' (by decide),
      List.splitOnP_eq_singleton (hnotimes height)]
  obtain ⟨number, text⟩ := line
  dsimp only at hline
  subst hline
  unfold Header.ofLine
  simp only [toList_header, htake, hdrop, hrest, hsplit, hsize hwidth, hsize hheight, String.ofList_toList]
  rfl

/-! ## Rows -/

/-- Characters that are no blanks go on with a word. -/
theorem wordsFrom_append {w : List Char} (h : ∀ c ∈ w, isBlank c = false) (column start : Nat) {word : List Char}
    (hword : word ≠ []) (rest : List Char) :
    wordsFrom column start word (w ++ rest) = wordsFrom (column + w.length) start (w.reverse ++ word) rest := by
  induction w generalizing column word with
  | nil => rfl
  | cons c w ih =>
      have hc : isBlank c = false := h c List.mem_cons_self
      have hempty : word.isEmpty = false := by simpa using hword
      rw [List.cons_append, wordsFrom, hc, hempty]
      simp only [Bool.false_eq_true, if_false]
      rw [ih (fun d hd => h d (List.mem_cons_of_mem c hd)) (column + 1) (List.cons_ne_nil c word)]
      simp only [List.length_cons, List.reverse_cons, List.append_assoc, List.singleton_append]
      congr 1
      omega

/-- Behind a word follow those that stand one blank apart. -/
theorem snd_wordsFrom_spaced {ws : List (List Char)} (h : ∀ w ∈ ws, w ≠ [] ∧ ∀ c ∈ w, isBlank c = false)
    (column start : Nat) {word : List Char} (hword : word ≠ []) :
    (wordsFrom column start word (spaced ws)).map Prod.snd = word.reverse :: ws := by
  induction ws generalizing column start word with
  | nil =>
      have hempty : word.isEmpty = false := by simpa using hword
      simp [spaced, wordsFrom, hempty]
  | cons w ws ih =>
      obtain ⟨hne, hblank⟩ := h w List.mem_cons_self
      obtain ⟨c, rest, rfl⟩ := List.exists_cons_of_ne_nil hne
      have hempty : word.isEmpty = false := by simpa using hword
      have hc : isBlank c = false := hblank c List.mem_cons_self
      have hspaced : spaced ((c :: rest) :: ws) = ' ' :: c :: (rest ++ spaced ws) := by simp [spaced]
      have hspace : isBlank ' ' = true := by decide
      rw [hspaced, wordsFrom, hspace, hempty]
      simp only [Bool.false_eq_true, if_false, if_true, List.map_cons]
      rw [wordsFrom, hc]
      simp only [Bool.false_eq_true, if_false, List.isEmpty_nil, if_true]
      rw [wordsFrom_append (fun d hd => hblank d (List.mem_cons_of_mem c hd)) _ _ (List.cons_ne_nil c []),
        ih (fun w' hw' => h w' (List.mem_cons_of_mem _ hw'))]
      · simp
      · simp

/-- The words of a text whose words stand one blank apart. -/
theorem snd_words {words : List String} (hne : words ≠ [])
    (h : ∀ w ∈ words, w.toList ≠ [] ∧ ∀ c ∈ w.toList, isBlank c = false) :
    (Text.words (" ".intercalate words).toList).map Prod.snd = words.map String.toList := by
  obtain ⟨first, rest, rfl⟩ := List.exists_cons_of_ne_nil hne
  obtain ⟨hfirst, hblank⟩ := h first List.mem_cons_self
  obtain ⟨c, cs, hchars⟩ := List.exists_cons_of_ne_nil hfirst
  have htext : (" ".intercalate (first :: rest)).toList = first.toList ++ spaced (rest.map String.toList) := by
    have hjoin := toList_joinLine first rest none
    simpa [joinLine] using hjoin
  have hc : isBlank c = false := hblank c (hchars ▸ List.mem_cons_self)
  have hcs : ∀ d ∈ cs, isBlank d = false := fun d hd => hblank d (hchars ▸ List.mem_cons_of_mem c hd)
  have hrest : ∀ w ∈ rest.map String.toList, w ≠ [] ∧ ∀ d ∈ w, isBlank d = false := by
    intro w hw
    obtain ⟨t, ht, rfl⟩ := List.mem_map.mp hw
    exact h t (List.mem_cons_of_mem first ht)
  rw [htext, hchars, words, List.cons_append, wordsFrom, hc]
  simp only [Bool.false_eq_true, if_false, List.isEmpty_nil, if_true]
  rw [wordsFrom_append hcs _ _ (List.cons_ne_nil c []), snd_wordsFrom_spaced hrest]
  · simp [hchars]
  · simp

/-- The numbers of a row. -/
def rowWords (values : List Bool) : List String := values.map fun isOpen => if isOpen then "1" else "0"

/-- Where each member of a list gives a value, all give theirs. -/
theorem mapM_ok {α β ε : Type} {members : List α} {f : α → Except ε β} (value : α → β)
    (h : ∀ a ∈ members, f a = .ok (value a)) : members.mapM f = .ok (members.map value) := by
  induction members with
  | nil => rfl
  | cons a rest ih =>
      rw [List.mapM_cons, h a List.mem_cons_self, ih fun b hb => h b (List.mem_cons_of_mem a hb)]
      rfl

/-- A row is read back. -/
theorem rowValues_rowWords {row : Line} {values : List Bool} (hne : values ≠ [])
    (hrow : row.text = (" ".intercalate (rowWords values)).toList) :
    rowValues values.length row = .ok values := by
  have hword : ∀ w ∈ rowWords values, w = "1" ∨ w = "0" := by
    intro w hw
    obtain ⟨isOpen, _, rfl⟩ := List.mem_map.mp hw
    cases isOpen
    · exact .inr rfl
    · exact .inl rfl
  have hwords : (Text.words row.text).map Prod.snd = (rowWords values).map String.toList := by
    rw [hrow]
    refine snd_words ?_ ?_
    · simpa [rowWords] using hne
    · intro w hw
      have hdigit : ∀ c : Char, c.isDigit = true → isBlank c = false := by
        intro c hc
        exact not_isBlank_of_isAlphanum (by simp [Char.isAlphanum, hc])
      rcases hword w hw with rfl | rfl
      · exact ⟨by decide, fun c hc => hdigit c (List.all_eq_true.mp (by decide) c hc)⟩
      · exact ⟨by decide, fun c hc => hdigit c (List.all_eq_true.mp (by decide) c hc)⟩
  have hback : (Text.words row.text).map (fun entry => entry.2 == ['1']) = values := by
    have hmap : (Text.words row.text).map (fun entry => entry.2 == ['1']) =
        ((Text.words row.text).map Prod.snd).map (· == ['1']) := by rw [List.map_map]; rfl
    rw [hmap, hwords, rowWords, List.map_map, List.map_map]
    refine (List.map_congr_left ?_).trans (List.map_id values)
    intro isOpen _
    cases isOpen <;> rfl
  unfold rowValues
  dsimp only
  rw [mapM_ok (fun entry => entry.2 == ['1']), hback]
  · exact if_pos rfl
  · rintro ⟨column, token⟩ hentry
    have htoken : token ∈ (rowWords values).map String.toList := hwords ▸ List.mem_map_of_mem hentry
    obtain ⟨w, hw, rfl⟩ := List.mem_map.mp htoken
    rcases hword w hw with rfl | rfl <;> rfl

/-! ## The cost of diagonals -/

/-- A numeral is a bare argument: behind its minus stands a digit. -/
theorem readsBare_of_isNumeral {cs : List Char} (h : Decimal.IsNumeral cs) : ReadsBare cs := by
  obtain ⟨sign, d, rest, rfl, hsign, hd, hrest⟩ := h
  have hdigit : ∀ c : Char, c.isDigit = true → inWord c = true := by
    intro c hc
    have hblank : isBlank c = false := not_isBlank_of_isAlphanum (by simp [Char.isAlphanum, hc])
    simp [inWord, hblank, ne_of_isDigit hc '\x7b' (by decide)]
  have hchars : ∀ c ∈ d :: rest, inWord c = true := by
    intro c hc
    rcases List.mem_cons.mp hc with rfl | hc
    · exact hdigit c hd
    · rcases hrest c hc with hc | rfl
      · exact hdigit c hc
      · decide
  rcases hsign with rfl | rfl
  · refine ⟨d, rest, rfl, ne_of_isDigit hd '"' (by decide), hchars, ?_⟩
    intro hdash
    exact absurd hdash (ne_of_isDigit hd '-' (by decide))
  · refine ⟨'-', d :: rest, rfl, by decide, ?_, ?_⟩
    · intro c hc
      rcases List.mem_cons.mp hc with rfl | hc
      · decide
      · exact hchars c hc
    · intro _ behind
      have hpoint : d ≠ '.' := ne_of_isDigit hd '.' (by decide)
      rw [List.cons_append]
      cases rest ++ behind <;> simp [startsNumber, hpoint, hd]

/-- What is written for the cost of diagonals is a bare argument, and leads back to a mode of this cost. -/
structure Spelt (d : Diagonal) : Prop where
  bare : ReadsBare d.display.toList
  mode : ∃ mode, Diagonal.ofText? d.display = some mode ∧ mode.value = d.value

/-- A name or a finite number is a bare argument. -/
theorem readsBare_display {d : Diagonal} (hd : d.Finite) : ReadsBare d.display.toList := by
  rcases d.display_eq with ⟨m, hm, hname, -⟩ | hnumber
  · rw [hname]
    refine readsBare_of_isPlain ?_
    clear hname
    revert m
    decide
  · rw [hnumber]
    exact readsBare_of_isNumeral (Decimal.isNumeral_write hd.1 hd.2)

/-- A finite cost leads back to itself, as long as numbers are read back. -/
theorem spelt_of_finite {d : Diagonal} (hd : d.Finite)
    (hread : Decimal.number? (Decimal.write Decimal.plainLayout d.value) = some d.value) : Spelt d where
  bare := readsBare_display hd
  mode := d.ofText?_display hd hread

theorem toList_diagonalLine (d : Diagonal) :
    s!"DIAGONAL {d.display}".toList = "DIAGONAL".toList ++ ' ' :: d.display.toList := by
  simp
  rfl

/-- The line of the cost of diagonals stays as it is when it is trimmed. -/
theorem trimmed_diagonalLine {d : Diagonal} (h : ReadsBare d.display.toList) :
    Trimmed s!"DIAGONAL {d.display}".toList := by
  rw [toList_diagonalLine]
  exact ReadsAsCommand.trimmed_word (by decide) h

end SearchLab.Notation.Grid
