import SearchLab.Notation.Grid
import SearchLab.Proofs.Bag

/-!
# What is written of data

Data are written without some of their keys, and what is read is set in data that are there already, member by member.
Both are seen through the values under keys, and through the members that are left when further keys are passed over.
-/

namespace SearchLab.Notation

open Grid (setAll)

/-- What is passed over when a bag is written or compared. -/
def isPassedOver (skip : List String) (key : String) : Bool := Node.transientKeys.contains key || skip.contains key

theorem lasting_eq (data : Bag) (skip : List String) :
    lasting data skip = data.filter fun m => !isPassedOver skip m.1 := by
  unfold lasting isPassedOver
  congr 1
  funext m
  rw [Bool.not_or]

/-- Under a key that is not passed over, data are written as they are. -/
theorem get?_lasting (data : Bag) (skip : List String) (key : String) :
    (lasting data skip).get? key = if isPassedOver skip key = true then none else data.get? key := by
  rw [lasting_eq, Bag.get?_filter data (fun key => !isPassedOver skip key)]
  by_cases hkey : isPassedOver skip key = true <;> simp [hkey]

/-- A key that data do not have is not written. -/
theorem get?_lasting_eq_none {data : Bag} {key : String} (skip : List String) (h : data.get? key = none) :
    (lasting data skip).get? key = none := by
  rw [get?_lasting, h]
  split <;> rfl

/-- Keys that are passed over anyway may be passed over before. -/
theorem lasting_lasting (data : Bag) {skip skip' : List String} (h : skip ⊆ skip') :
    lasting (lasting data skip) skip' = lasting data skip' := by
  rw [lasting_eq, lasting_eq, lasting_eq, List.filter_filter]
  apply List.filter_congr
  intro m hm
  unfold isPassedOver
  by_cases hskip : m.1 ∈ skip
  · simp [hskip, h hskip]
  · by_cases hskip' : m.1 ∈ skip' <;> simp [hskip, hskip']

theorem nodup_keys_lasting {data : Bag} (skip : List String) (h : data.keys.Nodup) : (lasting data skip).keys.Nodup :=
  h.sublist (List.filter_sublist.map Prod.fst)

/-- Passing over a key that was set is passing over it where it was. -/
theorem lasting_set (data : Bag) (skip : List String) (key : String) (value : Json) :
    lasting (data.set key value) skip =
      if isPassedOver skip key = true then lasting data skip else (lasting data skip).set key value := by
  simp only [lasting_eq]
  induction data with
  | nil => by_cases hpassed : isPassedOver skip key = true <;> simp [Bag.set, Json.store, hpassed]
  | cons m rest ih =>
      obtain ⟨k, v⟩ := m
      unfold Bag.set at ih ⊢
      by_cases hkey : k = key
      · subst hkey
        by_cases hpassed : isPassedOver skip k = true <;> simp [Json.store, hpassed]
      · by_cases hpassed : isPassedOver skip key = true <;> by_cases hk : isPassedOver skip k = true <;>
          simp [Json.store, hkey, hpassed, hk] at ih ⊢ <;> exact ih

/-- Members are set one by one. -/
theorem setAll_cons (bag : Bag) (key : String) (value : Json) (rest : Bag) :
    setAll bag ((key, value) :: rest) = setAll (bag.set key value) rest :=
  rfl

/-- What was set is found, and under all other keys what was there before. -/
theorem get?_setAll (bag : Bag) {news : Bag} (h : news.keys.Nodup) (key : String) :
    (setAll bag news).get? key = (news.get? key).or (bag.get? key) := by
  induction news generalizing bag with
  | nil => rfl
  | cons m rest ih =>
      obtain ⟨k, v⟩ := m
      obtain ⟨hfirst, hrest⟩ := List.nodup_cons.mp h
      rw [setAll_cons, ih _ hrest, Bag.get?_set]
      by_cases hkey : k = key
      · subst hkey
        have hnone : Bag.get? rest k = none := by
          cases hget : Bag.get? rest k with
          | none => rfl
          | some w => exact absurd (Bag.mem_keys_of_get? hget) hfirst
        unfold Bag.get? at hnone
        simp [hnone, Bag.get?, Json.lookup]
      · simp [hkey, Bag.get?, Json.lookup]

/-- Of members that are set, those under keys that are passed over make no difference. -/
theorem lasting_setAll (bag news : Bag) (skip : List String) :
    lasting (setAll bag news) skip = setAll (lasting bag skip) (lasting news skip) := by
  induction news generalizing bag with
  | nil => rfl
  | cons m rest ih =>
      obtain ⟨k, v⟩ := m
      rw [setAll_cons, ih, lasting_set]
      by_cases hpassed : isPassedOver skip k = true
      · have hskipped : lasting ((k, v) :: rest) skip = lasting rest skip := by
          simp [lasting_eq, hpassed]
        rw [if_pos hpassed, hskipped]
      · have hkept : lasting ((k, v) :: rest) skip = (k, v) :: lasting rest skip := by
          simp [lasting_eq, hpassed]
        rw [if_neg hpassed, hkept, setAll_cons]

/-- Members that are set in a bag without their keys stand behind its own. -/
theorem setAll_of_new {bag news : Bag} (h : (bag ++ news).keys.Nodup) : setAll bag news = bag ++ news := by
  induction news generalizing bag with
  | nil => simp [setAll]
  | cons m rest ih =>
      obtain ⟨k, v⟩ := m
      have hnew : bag.get? k = none := by
        cases hget : bag.get? k with
        | none => rfl
        | some w =>
            have hkeys : bag.keys ++ k :: Bag.keys rest = (bag ++ (k, v) :: rest).keys := by simp [Bag.keys]
            rw [← hkeys] at h
            exact absurd rfl ((List.nodup_append.mp h).2.2 k (Bag.mem_keys_of_get? hget) k List.mem_cons_self)
      rw [setAll_cons, Bag.set_of_get?_eq_none v hnew, ih]
      · simp
      · simpa [Bag.keys] using h

/-- Members that are set in an empty bag are the bag. -/
theorem setAll_nil {news : Bag} (h : news.keys.Nodup) : setAll [] news = news :=
  setAll_of_new h

end SearchLab.Notation
