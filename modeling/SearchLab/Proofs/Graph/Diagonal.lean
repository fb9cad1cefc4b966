import SearchLab.Graph.Diagonal
import SearchLab.Proofs.Decimal
import SearchLab.Proofs.Double

/-!
# The cost of diagonals as text

A cost is written by its name if it has one, and else as a number. Either way the text leads back to a mode of this
cost, as long as numbers are read back; the mode need not be the same, for a cost that has a name may have been given
as a number.
-/

namespace SearchLab.Diagonal

/-- The cost is a finite number. -/
def Finite (d : Diagonal) : Prop := d.value.isNaN = false ∧ d.value.isInf = false

/-- No cost with a name is a zero. -/
theorem ne_zero_of_mem_named {m : String × Diagonal} (h : m ∈ named) : (m.2.value == 0.0) = false := by
  revert m
  decide

/-- A cost that is equal to one with a name is that cost. -/
theorem value_eq_of_find? {v : Float} {m : String × Diagonal} (h : named.find? (fun m => m.2.value == v) = some m) :
    m ∈ named ∧ m.2.value = v := by
  have hmem := List.mem_of_find?_eq_some h
  have hequal : (m.2.value == v) = true := List.find?_some (p := fun m : String × Diagonal => m.2.value == v) h
  rcases Double.eq_or_zeros_of_beq hequal with hsame | ⟨hzero, -⟩
  · exact ⟨hmem, hsame⟩
  · rw [ne_zero_of_mem_named hmem] at hzero
    exact absurd hzero Bool.false_ne_true

theorem value_ofValue (v : Float) : (ofValue v).value = v := by
  unfold ofValue
  split
  · rename_i m hfound
    exact (value_eq_of_find? hfound).2
  · rfl

/-- A cost is written by the name of a mode of this cost, or as a number. -/
theorem display_eq (d : Diagonal) :
    (∃ m ∈ named, d.display = m.1 ∧ m.2.value = d.value) ∨ d.display = Decimal.write Decimal.plainLayout d.value := by
  unfold display name?
  cases hfound : named.find? (fun m => m.2.value == d.value) with
  | none => exact .inr rfl
  | some m =>
      obtain ⟨hmem, hvalue⟩ := value_eq_of_find? hfound
      exact .inl ⟨m, hmem, rfl, hvalue⟩

theorem map_toLower_eq {text : String} (h : ∀ c ∈ text.toList, c.toLower = c) : text.map Char.toLower = text := by
  apply String.toList_injective
  rw [String.toList_map]
  exact (List.map_congr_left h).trans (List.map_id text.toList)

/-- A number that is no name of a mode leads to a mode of this cost. -/
theorem ofText?_of_number {text : String} {v : Float} (hlower : text.map Char.toLower = text)
    (hunnamed : named.find? (fun m => m.1 = text) = none) (hread : Decimal.number? text = some v)
    (hnan : v.isNaN = false) : ofText? text = some (ofValue v) := by
  unfold ofText?
  simp only [hlower, hunnamed, hread, hnan]
  rfl

/-- A text without capitals. -/
theorem map_toLower_of_all {text : String} (h : (text.toList.all fun c => c.toLower == c) = true) :
    text.map Char.toLower = text :=
  map_toLower_eq fun c hc => eq_of_beq (List.all_eq_true.mp h c hc)

/-- The characters of a numeral are small letters already. -/
theorem toLower_of_isNumeral {cs : List Char} (h : Decimal.IsNumeral cs) : ∀ c ∈ cs, c.toLower = c := by
  obtain ⟨sign, d, rest, rfl, hsign, hd, hrest⟩ := h
  intro c hc
  rcases List.mem_append.mp hc with hc | hc
  · rcases hsign with rfl | rfl
    · exact absurd hc List.not_mem_nil
    · obtain rfl := List.mem_singleton.mp hc
      decide
  · rcases List.mem_cons.mp hc with rfl | hc
    · exact Decimal.toLower_of_isDigit hd
    · rcases hrest c hc with hc | rfl
      · exact Decimal.toLower_of_isDigit hc
      · decide

/-- The name of a mode leads to the mode. -/
theorem ofText?_of_mem_named {m : String × Diagonal} (h : m ∈ named) : ofText? m.1 = some m.2 := by
  have hlower : m.1.map Char.toLower = m.1 := by
    have hall : (named.all fun m => m.1.toList.all fun c => c.toLower == c) = true := by decide
    exact map_toLower_of_all (List.all_eq_true.mp hall m h)
  have hfound : named.find? (fun n => n.1 = m.1) = some m := by
    simp only [named, List.mem_cons, List.not_mem_nil, or_false] at h
    rcases h with rfl | rfl | rfl | rfl <;> rfl
  unfold ofText?
  simp only [hlower, hfound]

/-- The text of a number leads to a mode of this cost. -/
theorem ofText?_write {v : Float} (hnan : v.isNaN = false) (hinf : v.isInf = false)
    (hread : Decimal.number? (Decimal.write Decimal.plainLayout v) = some v) :
    ofText? (Decimal.write Decimal.plainLayout v) = some (ofValue v) := by
  have hnumeral := Decimal.isNumeral_write hnan hinf
  have hlower := map_toLower_eq (toLower_of_isNumeral hnumeral)
  have hunnamed : named.find? (fun m => m.1 = Decimal.write Decimal.plainLayout v) = none := by
    rw [List.find?_eq_none]
    intro m hm hname
    -- A name starts with a letter, and a number with a digit or a minus.
    have hname : m.1 = Decimal.write Decimal.plainLayout v := by simpa using hname
    obtain ⟨sign, d, rest, hshape, hsign, hd, _⟩ := hnumeral
    rw [← hname] at hshape
    have hletter : ∀ c, m.1.toList.head? = some c → c.isAlpha = true := by
      have hall : (named.all fun m => m.1.toList.head?.all Char.isAlpha) = true := by decide
      intro c hc
      have halpha := List.all_eq_true.mp hall m hm
      rw [hc] at halpha
      exact halpha
    rcases hsign with rfl | rfl
    · have halpha := hletter d (by rw [hshape]; rfl)
      have hrange := Decimal.toNat_of_isDigit hd
      have hhigh : (65 ≤ d.toNat ∧ d.toNat ≤ 90) ∨ (97 ≤ d.toNat ∧ d.toNat ≤ 122) := by
        change (decide ('A'.val ≤ d.val ∧ d.val ≤ 'Z'.val) || ('a'.val ≤ d.val && d.val ≤ 'z'.val)) = true at halpha
        simp only [Bool.or_eq_true, Bool.and_eq_true, decide_eq_true_eq, UInt32.le_iff_toNat_le] at halpha
        exact halpha
      omega
    · have halpha := hletter '-' (by rw [hshape]; rfl)
      exact absurd halpha (by decide)
  exact ofText?_of_number hlower hunnamed hread hnan

/-- What is written for a cost leads back to a mode of this cost. -/
theorem ofText?_display {d : Diagonal} (hd : d.Finite)
    (hread : Decimal.number? (Decimal.write Decimal.plainLayout d.value) = some d.value) :
    ∃ mode, ofText? d.display = some mode ∧ mode.value = d.value := by
  rcases d.display_eq with ⟨m, hm, hdisplay, hvalue⟩ | hdisplay
  · exact ⟨m.2, by rw [hdisplay, ofText?_of_mem_named hm], hvalue⟩
  · exact ⟨ofValue d.value, by rw [hdisplay, ofText?_write hd.1 hd.2 hread], value_ofValue d.value⟩

end SearchLab.Diagonal
