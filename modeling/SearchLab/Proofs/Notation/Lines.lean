import SearchLab.Notation.Document

/-!
# The lines of a document

A document is put together from lines that say something and from empty ones. `Trimmed` is what the former have in
common: they are not empty, hold no line feed and have no blank at either end. Such lines are found again in the
document, in their order, and the empty ones are passed over.
-/

namespace SearchLab.Notation

open Text

/-- A line as it is left after trimming. -/
structure Trimmed (cs : List Char) : Prop where
  flat : '\n' ∉ cs
  first : ∃ c rest, cs = c :: rest ∧ isBlank c = false
  last : ∃ front c, cs = front ++ [c] ∧ isBlank c = false

namespace Trimmed

/-- A character that is no blank is a line in itself. -/
theorem singleton {c : Char} (h : isBlank c = false) : Trimmed [c] where
  flat := by
    intro hmem
    have hc : '\n' = c := List.mem_singleton.mp hmem
    subst hc
    exact absurd h (by decide)
  first := ⟨c, [], rfl, h⟩
  last := ⟨[], c, rfl, h⟩

theorem ne_nil {cs : List Char} (h : Trimmed cs) : cs ≠ [] := by
  obtain ⟨c, rest, rfl, _⟩ := h.first
  exact List.cons_ne_nil c rest

/-- Whatever stands between the two ends of a line, on the same line. -/
theorem around {first middle last : List Char} (hfirst : Trimmed first) (hlast : Trimmed last)
    (hmiddle : '\n' ∉ middle) : Trimmed (first ++ middle ++ last) := by
  obtain ⟨c, rest, rfl, hc⟩ := hfirst.first
  obtain ⟨front, d, rfl, hd⟩ := hlast.last
  refine ⟨?_, ⟨c, rest ++ middle ++ (front ++ [d]), by simp, hc⟩, ⟨c :: rest ++ middle ++ front, d, by simp, hd⟩⟩
  intro hmem
  rcases List.mem_append.mp hmem with hmem | hmem
  · rcases List.mem_append.mp hmem with hmem | hmem
    · exact hfirst.flat hmem
    · exact hmiddle hmem
  · exact hlast.flat hmem

/-- Characters none of which is a blank. -/
theorem of_all {cs : List Char} (hne : cs ≠ []) (h : ∀ c ∈ cs, isBlank c = false) : Trimmed cs where
  flat := fun hmem => absurd (h _ hmem) (by decide)
  first := by
    obtain ⟨c, rest, rfl⟩ := List.exists_cons_of_ne_nil hne
    exact ⟨c, rest, rfl, h c List.mem_cons_self⟩
  last := by
    refine ⟨cs.dropLast, cs.getLast hne, (List.dropLast_concat_getLast hne).symm, ?_⟩
    exact h _ (List.getLast_mem hne)

/-- A word, character by character. -/
theorem of_word {cs : List Char} (h : (!cs.isEmpty && cs.all fun c => !isBlank c) = true) : Trimmed cs := by
  obtain ⟨hne, hall⟩ := (Bool.and_eq_true _ _).mp h
  refine of_all (by simpa using hne) fun c hc => ?_
  simpa using List.all_eq_true.mp hall c hc

/-- Words with a blank between them. -/
theorem intercalate {words : List String} (hne : words ≠ []) (h : ∀ w ∈ words, Trimmed w.toList) :
    Trimmed (" ".intercalate words).toList := by
  induction words with
  | nil => exact absurd rfl hne
  | cons w rest ih =>
      have hw : Trimmed w.toList := h w List.mem_cons_self
      cases rest with
      | nil => simpa using hw
      | cons v more =>
          have hrest : Trimmed (" ".intercalate (v :: more)).toList :=
            ih (List.cons_ne_nil v more) fun x hx => h x (List.mem_cons_of_mem w hx)
          rw [String.intercalate_cons_cons, String.toList_append, String.toList_append]
          exact around hw hrest (by decide)

/-- Trimming a line that is trimmed changes nothing. -/
theorem trim_eq {cs : List Char} (h : Trimmed cs) : trim cs = cs := by
  obtain ⟨c, rest, hcs, hc⟩ := h.first
  have hfront : cs.dropWhile isBlank = cs := by
    rw [hcs, List.dropWhile_cons_of_neg (by simp [hc])]
  obtain ⟨front, d, hcs', hd⟩ := h.last
  rw [trim, hfront, trimEnd, hcs', List.reverse_append, List.reverse_singleton, List.singleton_append,
    List.dropWhile_cons_of_neg (by simp [hd]), List.reverse_cons, List.reverse_reverse]

end Trimmed

/-- What one line of a document leaves, if it leaves anything. -/
private def keptLine (cs : List Char) (number : Nat) : Option Line :=
  if (trim cs).isEmpty then none else some ⟨number, trim cs⟩

/-- Numbering the lines does not change what they say. -/
private theorem text_filterMap_zipIdx (texts : List (List Char)) (number : Nat)
    (h : ∀ cs ∈ texts, cs = [] ∨ Trimmed cs) :
    ((texts.zipIdx number).filterMap fun (cs, number) => keptLine cs number).map Line.text =
      texts.filter fun cs => !cs.isEmpty := by
  induction texts generalizing number with
  | nil => rfl
  | cons cs rest ih =>
      have hrest := ih (number + 1) fun x hx => h x (List.mem_cons_of_mem cs hx)
      rcases h cs List.mem_cons_self with rfl | hcs
      · have hempty : keptLine [] number = none := rfl
        simpa [List.zipIdx_cons, hempty] using hrest
      · have hne : cs.isEmpty = false := by simpa using hcs.ne_nil
        have hkept : keptLine cs number = some ⟨number, cs⟩ := by simp [keptLine, hcs.trim_eq, hne]
        simpa [List.zipIdx_cons, hkept, hne] using hrest

/-- **The lines of a document.** What is read from lines joined to a document is those of them that are not
empty. -/
theorem text_lines_intercalate {texts : List String} (hne : texts ≠ [])
    (h : ∀ t ∈ texts, t = "" ∨ Trimmed t.toList) :
    (lines ("\n".intercalate texts)).map Line.text = (texts.map String.toList).filter fun cs => !cs.isEmpty := by
  have htexts : ∀ cs ∈ texts.map String.toList, cs = [] ∨ Trimmed cs := by
    intro cs hcs
    obtain ⟨t, ht, rfl⟩ := List.mem_map.mp hcs
    exact (h t ht).imp (fun hempty => by simp [hempty]) id
  have hflat : ∀ cs ∈ texts.map String.toList, '\n' ∉ cs := by
    intro cs hcs
    rcases htexts cs hcs with rfl | htrimmed
    · exact List.not_mem_nil
    · exact htrimmed.flat
  have hsplit : splitLines ("\n".intercalate texts).toList = texts.map String.toList := by
    rw [String.toList_intercalate]
    exact List.splitOn_intercalate '\n' hflat (by simpa using hne)
  have hlines := text_filterMap_zipIdx (texts.map String.toList) 1 htexts
  rw [← hlines, lines, hsplit]
  rfl

end SearchLab.Notation
