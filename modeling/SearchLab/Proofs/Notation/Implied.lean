import SearchLab.Proofs.Graph.Diagonal
import SearchLab.Proofs.Graph.Lattice
import SearchLab.Proofs.Notation.Payload

/-!
# What a lattice implies

Of the data of an edge those are not written that its place on the lattice implies: what it costs, and whether it is
forbidden. The tests are not the same for all edges. Along a side the cost that counts is compared, so a value that is
no number is passed over as well; across a corner only a number that is there and equal to the cost of diagonals is.

* `sameLoad_setAll` — what is written, set in what the lattice implies, costs the same, is forbidden alike, and leaves
all other data as they are.
-/

namespace SearchLab.Notation.Grid

open SearchLab.Graph (Contact weighed)

/-- The data that an edge of a new lattice has. -/
def template (d : Diagonal) : Contact → Bag
  | .orthogonal => []
  | .diagonal => weighed d []

/-- The cost need not be written. -/
def weightImplied (d : Diagonal) (data : Bag) : Contact → Bool
  | .orthogonal => (weightOf data).toFloat == 1.0
  | .diagonal => (data.number? "w").any fun w => w.toFloat == d.value

/-- Edges in such a place are forbidden. -/
def forbids (d : Diagonal) : Contact → Bool
  | .orthogonal => false
  | .diagonal => d.value < 0.0

/-- Whether the edge is forbidden need not be written. -/
def forbiddenImplied (d : Diagonal) (data : Bag) (c : Contact) : Bool :=
  match data.get? "forbidden" with
  | some (.bool b) => b == forbids d c
  | some _ => false
  | none => !forbids d c

/-- The keys that are not written. -/
def impliedKeys (weight forbidden : Bool) : List String :=
  (if weight then ["w"] else []) ++ if forbidden then ["forbidden"] else []

theorem edgeData_eq (c : Contact) (d : Diagonal) (data : Bag) :
    edgeData c d data = lasting data (impliedKeys (weightImplied d data c) (forbiddenImplied d data c)) := by
  cases c <;> rfl

theorem impliedKeys_subset (weight forbidden : Bool) : impliedKeys weight forbidden ⊆ ["w", "forbidden"] := by
  cases weight <;> cases forbidden <;> decide

/-- Data cost the same and are forbidden alike, and what else they hold is the same. -/
structure SameLoad (data data' : Bag) : Prop where
  weight : (weightOf data).toFloat = (weightOf data').toFloat
  forbidden : data.isTruthy "forbidden" = data'.isTruthy "forbidden"
  rest : lasting data ["w", "forbidden"] = lasting data' ["w", "forbidden"]

/-- Whether data turn an edge around is among the rest. -/
theorem SameLoad.flipped {data data' : Bag} (h : SameLoad data data') :
    data.isTruthy "flipped" = data'.isTruthy "flipped" := by
  have hget : ∀ bag : Bag, (lasting bag ["w", "forbidden"]).get? "flipped" = bag.get? "flipped" := by
    intro bag
    rw [get?_lasting, if_neg (by decide)]
  unfold Bag.isTruthy
  rw [← hget data, ← hget data', h.rest]

/-! ## The values under the two keys -/

section Values

variable {data : Bag}

/-- What is written is set in what the lattice implies. -/
theorem get?_written (c : Contact) (d d' : Diagonal) (hnodup : data.keys.Nodup) (key : String) :
    (setAll (template d' c) (edgeData c d data)).get? key =
      ((edgeData c d data).get? key).or ((template d' c).get? key) := by
  refine get?_setAll _ ?_ key
  rw [edgeData_eq]
  exact nodup_keys_lasting _ hnodup

variable {c : Contact} {d d' : Diagonal}

theorem get?_edgeData_weight :
    (edgeData c d data).get? "w" = if weightImplied d data c = true then none else data.get? "w" := by
  rw [edgeData_eq, get?_lasting]
  generalize weightImplied d data c = weight
  generalize forbiddenImplied d data c = forbidden
  cases weight <;> cases forbidden <;> rfl

theorem get?_edgeData_forbidden :
    (edgeData c d data).get? "forbidden" = if forbiddenImplied d data c = true then none else data.get? "forbidden" := by
  rw [edgeData_eq, get?_lasting]
  generalize weightImplied d data c = weight
  generalize forbiddenImplied d data c = forbidden
  cases weight <;> cases forbidden <;> rfl

/-- The cost of diagonals as it is set in data. -/
theorem get?_template_weight (hd : d.Finite) : (template d .diagonal).get? "w" = some (.number (.float d.value)) := by
  have hvalue : Json.ofFloat d.value = .number (.float d.value) := by
    unfold Json.ofFloat
    rw [hd.1, hd.2]
    rfl
  rw [← hvalue]
  rfl

/-- The cost of an edge is decided by the value under its key. -/
theorem weightOf_congr {data data' : Bag} (h : data.get? "w" = data'.get? "w") : weightOf data = weightOf data' := by
  unfold weightOf Bag.number?
  rw [h]

/-- A cost that is implied is the one that an edge of a new lattice has. -/
theorem toFloat_weightOf_template (hd : d.Finite) (himplied : weightImplied d data c = true) :
    (weightOf (template d c)).toFloat = (weightOf data).toFloat := by
  cases c with
  | orthogonal =>
      rcases Double.eq_or_zeros_of_beq himplied with hone | ⟨-, hzero⟩
      · rw [hone]
        rfl
      · exact absurd hzero (by decide)
  | diagonal =>
      obtain ⟨w, hw, hequal⟩ := (Option.any_eq_true _ _).mp himplied
      have hnumber : Bag.number? (template d .diagonal) "w" = some (.float d.value) := by
        rw [Bag.number?, get?_template_weight hd]
        rfl
      have hfloat : (Number.float d.value).toFloat = d.value := rfl
      rw [weightOf, weightOf, hw, hnumber]
      dsimp only
      rw [hfloat]
      -- Equal costs are the same or are both zeros, and a zero does not count.
      rcases Double.eq_or_zeros_of_beq hequal with hsame | ⟨hzero, hzero'⟩
      · rw [hsame]
        split
        · rfl
        · exact hsame.symm
      · rw [if_pos hzero, if_pos hzero']

/-- What was written costs what it cost. -/
theorem weight_written (hnodup : data.keys.Nodup) (hvalue : d'.value = d.value) (hd : d.Finite)
    (hthere : c = .diagonal → (data.get? "w").isSome = true) :
    (weightOf (setAll (template d' c) (edgeData c d data))).toFloat = (weightOf data).toFloat := by
  have hget := get?_written c d d' hnodup "w"
  rw [get?_edgeData_weight] at hget
  by_cases himplied : weightImplied d data c = true
  · rw [if_pos himplied, Option.none_or] at hget
    have hd' : d'.Finite := by
      unfold Diagonal.Finite
      rwa [hvalue]
    have himplied' : weightImplied d' data c = true := by
      rw [← himplied]
      unfold weightImplied
      rw [hvalue]
    rw [weightOf_congr hget, toFloat_weightOf_template hd' himplied']
  · rw [if_neg himplied] at hget
    have hsame : (setAll (template d' c) (edgeData c d data)).get? "w" = data.get? "w" := by
      rw [hget]
      cases c with
      | orthogonal => exact Option.or_none
      | diagonal =>
          obtain ⟨v, hv⟩ := Option.isSome_iff_exists.mp (hthere rfl)
          rw [hv]
          rfl
    rw [weightOf_congr hsame]

/-- What was written is forbidden when it was. -/
theorem forbidden_written (hnodup : data.keys.Nodup) (hvalue : d'.value = d.value)
    (hthere : c = .diagonal → (data.get? "forbidden").isSome = true) :
    Bag.isTruthy (setAll (template d' c) (edgeData c d data)) "forbidden" = data.isTruthy "forbidden" := by
  have hget := get?_written c d d' hnodup "forbidden"
  rw [get?_edgeData_forbidden] at hget
  unfold Bag.isTruthy
  by_cases himplied : forbiddenImplied d data c = true
  · rw [if_pos himplied, Option.none_or] at hget
    rw [hget]
    unfold forbiddenImplied at himplied
    cases c with
    | orthogonal =>
        have hnone : (template d' .orthogonal).get? "forbidden" = none := rfl
        rw [hnone]
        split at himplied
        · rename_i b hb
          have hfalse : b = false := by simpa [forbids] using himplied
          rw [hb, hfalse]
          rfl
        · exact absurd himplied Bool.false_ne_true
        · rename_i hb
          rw [hb]
    | diagonal =>
        have hbool : (template d' .diagonal).get? "forbidden" = some (.bool (d.value < 0.0)) := by
          rw [← hvalue]
          rfl
        rw [hbool]
        split at himplied
        · rename_i b hb
          have hsame : b = decide (d.value < 0.0) := eq_of_beq himplied
          rw [hb, hsame]
        · exact absurd himplied Bool.false_ne_true
        · rename_i hb
          rw [hb] at hthere
          exact absurd (hthere rfl) Bool.false_ne_true
  · rw [if_neg himplied] at hget
    have hsame : (setAll (template d' c) (edgeData c d data)).get? "forbidden" = data.get? "forbidden" := by
      rw [hget]
      cases c with
      | orthogonal => exact Option.or_none
      | diagonal =>
          obtain ⟨v, hv⟩ := Option.isSome_iff_exists.mp (hthere rfl)
          rw [hv]
          rfl
    rw [hsame]

/-- All other data are written as they are. -/
theorem rest_written (hnodup : data.keys.Nodup) :
    lasting (setAll (template d' c) (edgeData c d data)) ["w", "forbidden"] = lasting data ["w", "forbidden"] := by
  have htemplate : lasting (template d' c) ["w", "forbidden"] = [] := by
    cases c <;> rfl
  rw [lasting_setAll, htemplate, edgeData_eq, lasting_lasting data (impliedKeys_subset _ _)]
  exact setAll_nil (nodup_keys_lasting _ hnodup)

/-- **What is written of an edge, set in what the lattice implies, amounts to the same.** -/
theorem sameLoad_setAll (hnodup : data.keys.Nodup) (hvalue : d'.value = d.value) (hd : d.Finite)
    (hweight : c = .diagonal → (data.get? "w").isSome = true)
    (hforbidden : c = .diagonal → (data.get? "forbidden").isSome = true) :
    SameLoad (setAll (template d' c) (edgeData c d data)) data where
  weight := weight_written hnodup hvalue hd hweight
  forbidden := forbidden_written hnodup hvalue hforbidden
  rest := rest_written hnodup

end Values

end SearchLab.Notation.Grid
