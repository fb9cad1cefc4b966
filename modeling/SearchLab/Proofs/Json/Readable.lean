import SearchLab.Json.Reader
import SearchLab.Proofs.Bag
import SearchLab.Proofs.Double

/-!
# What a text can spell

The reader makes no value that breaks the bounds of data: a number is an integer of a word or a double that is not
infinite, and no object has a key twice. That holds of all values that a state has in hand, and each step keeps it.

* `State.Sound.step` — one more character;
* `readable_of_read` — the value that a text spells.
-/

namespace SearchLab

/-- Setting a key changes no other member. -/
theorem Bag.mem_of_mem_set {bag : Bag} {key : String} {value : Json} {m : String × Json} (h : m ∈ bag.set key value) :
    m ∈ bag ∨ m = (key, value) := by
  induction bag with
  | nil => exact .inr (List.mem_singleton.mp h)
  | cons m' rest ih =>
      obtain ⟨k, v⟩ := m'
      unfold Bag.set at h ih
      by_cases hkey : k = key
      · rw [Json.store, if_pos hkey] at h
        rcases List.mem_cons.mp h with rfl | h
        · exact .inr (by rw [hkey])
        · exact .inl (List.mem_cons_of_mem _ h)
      · rw [Json.store, if_neg hkey] at h
        rcases List.mem_cons.mp h with rfl | h
        · exact .inl List.mem_cons_self
        · exact (ih h).imp_left (List.mem_cons_of_mem _)

/-- A number that data can hold. -/
def Number.Holds : Number → Prop
  | int n => -(Word.half : Int) ≤ n ∧ n < (Word.size : Int)
  | float x => x.isInf = false

namespace Json

/-- A value that a text can spell. -/
inductive Readable : Json → Prop
  | null : Readable .null
  | bool (b : Bool) : Readable (.bool b)
  | number {n : Number} (h : n.Holds) : Readable (.number n)
  | text (s : String) : Readable (.text s)
  | list {items : List Json} (h : ∀ v ∈ items, Readable v) : Readable (.list items)
  | object {members : List (String × Json)} (hkeys : (Bag.keys members).Nodup) (h : ∀ m ∈ members, Readable m.2) :
      Readable (.object members)

theorem Readable.empty : Readable (.object []) := .object List.nodup_nil (by simp)

theorem distinctItems_iff {items : List Json} : DistinctItems items ↔ ∀ v ∈ items, v.Distinct := by
  induction items with
  | nil => simp [DistinctItems]
  | cons v rest ih => simp [DistinctItems, ih]

/-- What a text can spell has no key twice, at any depth. -/
theorem Readable.distinct {value : Json} (h : Readable value) : value.Distinct := by
  induction h with
  | list _ ih => exact distinctItems_iff.mpr ih
  | object hkeys _ ih => exact Bag.distinct_iff.mpr ⟨hkeys, fun _ _ hvalue => ih _ (Bag.mem_of_get? hvalue)⟩
  | _ => exact trivial

/-- A value may be stored under any key. -/
theorem Readable.store {members : List (String × Json)} (h : Readable (.object members)) (key : String) {value : Json}
    (hvalue : Readable value) : Readable (.object (store key value members)) := by
  cases h with
  | object hkeys h =>
      refine .object (Bag.nodup_keys_set key value hkeys) fun m hm => ?_
      rcases Bag.mem_of_mem_set hm with hold | rfl
      · exact h m hold
      · exact hvalue

/-- The value of a number that has been read. -/
theorem readable_of_numeral {n : Numeral} {value : Json} (h : n.value = .ok value) : Readable value := by
  have hfloat : ∀ {x : Float} {v : Json}, (if x.isInf = true then Except.error Fault.numberTooLarge
      else .ok (.number (.float (if n.negative = true then -x else x)))) = .ok v → Readable v := by
    intro x v hv
    split at hv
    · cases hv
    · rename_i hinf
      cases hv
      have hfinite : x.isInf = false := by simpa using hinf
      refine .number ?_
      unfold Number.Holds
      dsimp only
      split
      · rw [Double.isInf_neg, hfinite]
      · exact hfinite
  have hwhole : ∀ {other : Except Fault Json} {v : Json}, (∀ {w}, other = .ok w → Readable w) →
      (if n.negative = true then
        if (decide (n.digits = 0) || decide (Word.half < n.digits)) = true then other
        else .ok (.int (-(n.digits : Int)))
      else if n.digits < Word.size then .ok (.nat n.digits) else other) = .ok v → Readable v := by
    have hsize : Word.size = 2 * Word.half := Word.size_eq
    intro other v hother hv
    split at hv
    · split at hv
      · exact hother hv
      · rename_i hbounds
        cases hv
        simp only [Bool.or_eq_true, decide_eq_true_eq, not_or] at hbounds
        exact .number ⟨by omega, by omega⟩
    · split at hv
      · cases hv
        exact .number ⟨by omega, by omega⟩
      · exact hother hv
  unfold Numeral.value at h
  dsimp only at h
  split at h
  · exact hwhole hfloat h
  · exact hwhole hfloat h
  · exact hfloat h
  · exact hfloat h
  · cases h

/-! ## States -/

/-- What is in hand where a character may come next. -/
def Mode.Sound : Mode → Prop
  | .word _ v => Readable v
  | .after v => Readable v
  | _ => True

/-- The values of an object or list that is still open. -/
def Frame.Sound : Frame → Prop
  | .list items => ∀ v ∈ items, Readable v
  | .object members _ => Readable (.object members)

namespace State

/-- All values that a state has in hand could be spelled. -/
structure Sound (s : State) : Prop where
  mode : s.mode.Sound
  stack : ∀ f ∈ s.stack, f.Sound

variable {s s' : State} {c : Char}

theorem Sound.move (h : s.Sound) {mode : Mode} (hmode : mode.Sound) (c : Char) : (s.move c mode).Sound :=
  ⟨hmode, h.stack⟩

theorem not_refuse {fault : Fault} {P : Prop} (h : s.refuse fault = .ok s') : P := by
  cases h

theorem Sound.opened (h : s.Sound) {frame : Frame} {mode : Mode} (hframe : frame.Sound) (hmode : mode.Sound)
    (hs : s.opened c frame mode = .ok s') : s'.Sound := by
  unfold State.opened at hs
  split at hs
  · cases hs
    exact ⟨hmode, List.forall_mem_cons.mpr ⟨hframe, h.stack⟩⟩
  · exact not_refuse hs

theorem Sound.startValue (h : s.Sound) (hs : s.startValue c = .ok s') : s'.Sound := by
  unfold State.startValue at hs
  split at hs
  · exact h.opened (by simp [Frame.Sound]) (by trivial) hs
  split at hs
  · have hframe : (Frame.object [] "").Sound := Readable.empty
    exact h.opened hframe (by trivial) hs
  split at hs
  · cases hs
    exact h.move (by trivial) c
  split at hs
  · cases hs
    exact h.move (by exact .null) c
  split at hs
  · cases hs
    exact h.move (by exact .bool true) c
  split at hs
  · cases hs
    exact h.move (by exact .bool false) c
  split at hs
  · cases hs
    exact h.move (by trivial) c
  split at hs
  · cases hs
    exact h.move (by trivial) c
  · exact not_refuse hs

/-- The list or object at the top of a stack could be spelled, and those below it. -/
theorem Sound.close {stack : List Frame} {v : Json} (hv : Readable v) (hstack : ∀ f ∈ stack, f.Sound) (s : State)
    (c : Char) : (s.close c stack v).Sound :=
  ⟨hv, hstack⟩

theorem Sound.beforeValue (h : s.Sound) {expect : Expect} (hs : s.beforeValue expect c = .ok s') :
    s'.Sound := by
  unfold State.beforeValue at hs
  split at hs
  · cases hs
    exact h.move h.mode c
  split at hs
  · split at hs
    · rename_i items stack hstack
      cases hs
      obtain ⟨hitems, hbelow⟩ := List.forall_mem_cons.mp (hstack ▸ h.stack)
      exact .close (.list fun v hv => hitems v (List.mem_reverse.mp hv)) hbelow s c
    · exact not_refuse hs
    · exact not_refuse hs
  · exact h.startValue hs

theorem Sound.beforeKey (h : s.Sound) {first : Bool} (hs : s.beforeKey first c = .ok s') : s'.Sound := by
  unfold State.beforeKey at hs
  split at hs
  · cases hs
    exact h.move h.mode c
  split at hs
  · cases hs
    exact h.move (by trivial) c
  split at hs
  · split at hs
    · rename_i members key stack hstack
      cases hs
      obtain ⟨hmembers, hbelow⟩ := List.forall_mem_cons.mp (hstack ▸ h.stack)
      exact .close hmembers hbelow s c
    · exact not_refuse hs
  · exact not_refuse hs

theorem Sound.behindValue (h : s.Sound) {v : Json} (hv : Readable v) (hs : s.behindValue v c = .ok s') : s'.Sound := by
  unfold State.behindValue at hs
  split at hs
  · cases hs
    exact h.move (by exact hv) c
  split at hs
  · exact not_refuse hs
  · rename_i items stack hstack
    obtain ⟨hitems, hbelow⟩ := List.forall_mem_cons.mp (hstack ▸ h.stack)
    have hall : ∀ w ∈ v :: items, Readable w := List.forall_mem_cons.mpr ⟨hv, hitems⟩
    split at hs
    · cases hs
      exact ⟨trivial, List.forall_mem_cons.mpr ⟨hall, hbelow⟩⟩
    split at hs
    · cases hs
      exact .close (.list fun w hw => hall w (List.mem_reverse.mp hw)) hbelow s c
    · exact not_refuse hs
  · rename_i members key stack hstack
    obtain ⟨hmembers, hbelow⟩ := List.forall_mem_cons.mp (hstack ▸ h.stack)
    have hstored := Readable.store hmembers key hv
    dsimp only at hs
    split at hs
    · cases hs
      exact ⟨trivial, List.forall_mem_cons.mpr ⟨hstored, hbelow⟩⟩
    split at hs
    · cases hs
      exact .close hstored hbelow s c
    · exact not_refuse hs

theorem Sound.endText (h : s.Sound) (isKey : Bool) (chars : List Char) (c : Char) : (s.endText isKey chars c).Sound := by
  unfold State.endText
  dsimp only
  split
  · rename_i members key stack hstack
    obtain ⟨hmembers, hbelow⟩ := List.forall_mem_cons.mp (hstack ▸ h.stack)
    exact ⟨trivial, List.forall_mem_cons.mpr ⟨hmembers, hbelow⟩⟩
  · exact h.move (by exact .text _) c

theorem Sound.insideText (h : s.Sound) {isKey : Bool} {chars : List Char} {escape : Escape}
    (hs : s.insideText isKey chars escape c = .ok s') : s'.Sound := by
  have hmove : ∀ {chars : List Char} {escape : Escape}, Except.ok (s.move c (.text isKey chars escape)) =
      (Except.ok s' : Except Failure State) → s'.Sound := by
    intro chars escape heq
    cases heq
    exact h.move (by trivial) c
  unfold State.insideText at hs
  split at hs
  · split at hs
    · cases hs
      exact h.endText isKey chars c
    split at hs
    · exact hmove hs
    split at hs
    · exact not_refuse hs
    · exact hmove hs
  · split at hs
    · exact hmove hs
    split at hs
    · exact hmove hs
    · exact not_refuse hs
  · dsimp only at hs
    split at hs
    · exact hmove hs
    split at hs
    · unfold State.endHex at hs
      dsimp only at hs
      split at hs
      · split at hs
        · exact not_refuse hs
        split at hs
        · exact hmove hs
        · exact hmove hs
      · split at hs
        · exact hmove hs
        · exact not_refuse hs
    · cases hs
  · split at hs
    · exact hmove hs
    · exact not_refuse hs
  · split at hs
    · exact hmove hs
    · exact not_refuse hs

/-- **One more character** leaves all values in hand such that they could be spelled. -/
theorem Sound.step (h : s.Sound) (hs : s.step c = .ok s') : s'.Sound := by
  have hmode := h.mode
  unfold State.step at hs
  split at hs
  · exact h.beforeValue hs
  · exact h.beforeKey hs
  · split at hs
    · cases hs
      exact h.move (by trivial) c
    split at hs
    · cases hs
      exact h.move (by trivial) c
    · exact not_refuse hs
  · exact h.insideText hs
  · rename_i v hword
    rw [hword] at hmode
    exact h.behindValue hmode hs
  · rename_i d rest v hword
    rw [hword] at hmode
    split at hs
    · cases hs
      refine h.move ?_ c
      split
      · exact hmode
      · exact hmode
    · exact not_refuse hs
  · rename_i numeral hnumber
    split at hs
    · cases hs
      exact h.move (by trivial) c
    · exact not_refuse hs
    · split at hs
      · rename_i v hv
        exact h.behindValue (readable_of_numeral hv) hs
      · cases hs
  · rename_i v hafter
    rw [hafter] at hmode
    exact h.behindValue hmode hs

/-- A text leaves all values in hand such that they could be spelled. -/
theorem Sound.run (h : s.Sound) {cs : List Char} (hs : s.run cs = .ok s') : s'.Sound := by
  induction cs generalizing s with
  | nil =>
      cases hs
      exact h
  | cons c rest ih =>
      cases hstep : s.step c with
      | error f =>
          have hfails : s.run (c :: rest) = .error f := by simp [State.run, List.foldlM_cons, hstep, bind, Except.bind]
          rw [hfails] at hs
          exact absurd hs (by simp)
      | ok t =>
          have hgoes : s.run (c :: rest) = t.run rest := by simp [State.run, List.foldlM_cons, hstep, bind, Except.bind]
          exact ih (h.step hstep) (hgoes ▸ hs)

theorem Sound.finish (h : s.Sound) {v : Json} (hs : s.finish = .ok v) : Readable v := by
  have hmode := h.mode
  unfold State.finish at hs
  dsimp only at hs
  -- What is left open is refused in any case.
  rcases hstack : s.stack with _ | ⟨_ | _, _⟩
  · rw [hstack] at hs
    dsimp only at hs
    split at hs
    any_goals cases hs
    · rename_i hword
      rw [hword] at hmode
      exact hmode
    · split at hs
      · rename_i w hw
        cases hs
        exact readable_of_numeral hw
      · cases hs
      · cases hs
    · rename_i hafter
      rw [hafter] at hmode
      exact hmode
  all_goals
    rw [hstack] at hs
    dsimp only at hs
    split at hs
    any_goals cases hs
    split at hs
    all_goals cases hs

theorem sound_start : start.Sound := ⟨trivial, by simp [start]⟩

end State

/-- **What a text spells is readable**: no object has a key twice, integers fit into words, and no double is infinite. -/
theorem readable_of_read {text : String} {v : Json} (h : Json.read text = .ok v) : Readable v := by
  unfold Json.read at h
  dsimp only at h
  split at h
  · rename_i value hread
    cases h
    cases hrun : State.start.run text.toList with
    | error f =>
        rw [hrun] at hread
        cases hread
    | ok s =>
        rw [hrun] at hread
        exact (State.sound_start.run hrun).finish hread
  · exact absurd h (by simp)

end Json

end SearchLab
