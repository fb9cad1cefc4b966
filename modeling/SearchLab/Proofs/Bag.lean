import SearchLab.Bag

/-!
# What a bag holds

Laws of bags that say which members there are: a key that is missing is the key of no member, and setting it puts a
member behind all others. Bags with the same keys in the same order and the same values under them are the same
(`ext_get?`). Bags hold bags, and what is shown of all of them is shown by `induction_nested`, from the bags under the
keys of a bag to the bag itself.
-/

namespace SearchLab.Bag

/-- No member of a bag has a key that the bag does not have. -/
theorem ne_of_get?_eq_none {bag : Bag} {key : String} (h : bag.get? key = none) : ∀ m ∈ bag, m.1 ≠ key := by
  induction bag with
  | nil => simp
  | cons m rest ih =>
      obtain ⟨k, v⟩ := m
      have hk : k ≠ key := by
        rintro rfl
        simp [get?, Json.lookup] at h
      have hrest : get? rest key = none := by
        simpa [get?, Json.lookup, hk] using h
      intro m' hm'
      rcases List.mem_cons.mp hm' with rfl | hm'
      · exact hk
      · exact ih hrest m' hm'

/-- The value under a key is that of a member. -/
theorem mem_of_get? {bag : Bag} {key : String} {value : Json} (h : bag.get? key = some value) :
    (key, value) ∈ bag := by
  induction bag with
  | nil => exact absurd h (by simp [get?, Json.lookup])
  | cons m rest ih =>
      obtain ⟨k, v⟩ := m
      by_cases hk : k = key
      · obtain rfl : v = value := by simpa [get?, Json.lookup, hk] using h
        exact hk ▸ List.mem_cons_self
      · have hrest : get? rest key = some value := by
          simpa [get?, Json.lookup, hk] using h
        exact List.mem_cons_of_mem _ (ih hrest)

/-- A key with a value is one of the keys. -/
theorem mem_keys_of_get? {bag : Bag} {key : String} {value : Json} (h : bag.get? key = some value) :
    key ∈ bag.keys :=
  List.mem_map_of_mem (mem_of_get? h)

/-- Each of the keys has a value. -/
theorem isSome_get?_of_mem_keys {bag : Bag} {key : String} (h : key ∈ bag.keys) : (bag.get? key).isSome = true := by
  induction bag with
  | nil => exact absurd h List.not_mem_nil
  | cons m rest ih =>
      obtain ⟨k, v⟩ := m
      by_cases hk : k = key
      · simp [get?, Json.lookup, hk]
      · have hrest : key ∈ keys rest := (List.mem_cons.mp h).resolve_left (Ne.symm hk)
        simpa [get?, Json.lookup, hk] using ih hrest

theorem eq_nil_iff_keys {bag : Bag} : bag = [] ↔ ∀ key, key ∉ bag.keys := by
  cases bag with
  | nil => simp [keys]
  | cons m rest => exact iff_of_false (List.cons_ne_nil m rest) fun h => h m.1 List.mem_cons_self

/-- A value is missing where the key is. -/
theorem get?_eq_none_iff {bag : Bag} {key : String} : bag.get? key = none ↔ key ∉ bag.keys := by
  refine ⟨fun h hkey => ?_, fun h => ?_⟩
  · have hsome := isSome_get?_of_mem_keys hkey
    rw [h] at hsome
    cases hsome
  · cases hget : bag.get? key with
    | none => rfl
    | some value => exact absurd (mem_keys_of_get? hget) h

/-- A member whose key is there once is the one that is found. -/
theorem get?_of_mem {bag : Bag} (hkeys : bag.keys.Nodup) {m : String × Json} (hm : m ∈ bag) :
    bag.get? m.1 = some m.2 := by
  induction bag with
  | nil => exact absurd hm List.not_mem_nil
  | cons first rest ih =>
      obtain ⟨hfirst, hrest⟩ := List.nodup_cons.mp hkeys
      rcases List.mem_cons.mp hm with rfl | hm
      · simp [get?, Json.lookup]
      · have hne : first.1 ≠ m.1 := fun hsame => hfirst (hsame ▸ List.mem_map_of_mem hm)
        have hfound := ih hrest hm
        simpa [get?, Json.lookup, hne] using hfound

/-- A key that a bag does not have is set behind all others. -/
theorem set_of_get?_eq_none {bag : Bag} {key : String} (value : Json) (h : bag.get? key = none) :
    bag.set key value = bag ++ [(key, value)] := by
  induction bag with
  | nil => rfl
  | cons m rest ih =>
      obtain ⟨k, v⟩ := m
      have hk : k ≠ key := ne_of_get?_eq_none h (k, v) List.mem_cons_self
      have hrest : get? rest key = none := by
        simpa [get?, Json.lookup, hk] using h
      have htail : set rest key value = rest ++ [(key, value)] := ih hrest
      simpa [set, Json.store, hk] using htail

/-- The value that was set last stands. -/
theorem set_set (bag : Bag) (key : String) (value value' : Json) :
    (bag.set key value).set key value' = bag.set key value' := by
  induction bag with
  | nil => simp [set, Json.store]
  | cons m rest ih =>
      obtain ⟨k, v⟩ := m
      have htail : set (set rest key value) key value' = set rest key value' := ih
      unfold set at htail ⊢
      by_cases h : k = key
      · simp [Json.store, h]
      · simp [Json.store, h, htail]

/-- Setting the value that is there changes nothing. -/
theorem set_of_get? {bag : Bag} {key : String} {value : Json} (h : bag.get? key = some value) :
    bag.set key value = bag := by
  induction bag with
  | nil => cases h
  | cons m rest ih =>
      obtain ⟨k, v⟩ := m
      by_cases hk : k = key
      · obtain rfl : v = value := by simpa [get?, Json.lookup, hk] using h
        simp [set, Json.store, hk]
      · have hrest : get? rest key = some value := by
          simpa [get?, Json.lookup, hk] using h
        have htail : set rest key value = rest := ih hrest
        unfold set at htail ⊢
        simp [Json.store, hk, htail]

/-- A new key that was set is the last one, and erasing it leaves the others in their order. -/
theorem erase_set_of_get?_eq_none {bag : Bag} {key : String} (value : Json) (h : bag.get? key = none) :
    (bag.set key value).erase key = bag := by
  rw [set_of_get?_eq_none value h]
  simp [erase]

/-- Where a key is there already, setting it may come before or after setting another one. -/
theorem set_comm {bag : Bag} {key other : String} (value value' : Json) (hne : key ≠ other)
    (h : (bag.get? key).isSome = true) : (bag.set other value').set key value = (bag.set key value).set other value' := by
  induction bag with
  | nil => exact absurd h Bool.false_ne_true
  | cons m rest ih =>
      obtain ⟨k, v⟩ := m
      unfold set at ih ⊢
      by_cases hkey : k = key
      · subst hkey
        simp [Json.store, hne]
      · by_cases hother : k = other
        · subst hother
          simp [Json.store, hkey]
        · have hrest : (get? rest key).isSome = true := by
            simpa [get?, Json.lookup, hkey] using h
          have htail := ih hrest
          simp [Json.store, hkey, hother, htail]

/-- Setting keys one by one, no key is there twice. -/
theorem nodup_keys_set {bag : Bag} (key : String) (value : Json) (h : bag.keys.Nodup) :
    (bag.set key value).keys.Nodup := by
  rw [keys_set]
  split
  · exact h
  · rename_i hnew
    refine List.nodup_append.mpr ⟨h, by simp, ?_⟩
    rintro k hk k' hk' rfl
    exact hnew (List.mem_singleton.mp hk' ▸ hk)

/-- A key that is there stays there. -/
theorem isSome_get?_set {bag : Bag} {key : String} (other : String) (value : Json)
    (h : (bag.get? key).isSome = true) : ((bag.set other value).get? key).isSome = true := by
  rw [get?_set]
  split
  · rfl
  · exact h

/-! ## Parts of bags -/

theorem get?_cons (first key : String) (value : Json) (rest : Bag) :
    get? ((first, value) :: rest) key = if first = key then some value else rest.get? key :=
  rfl

theorem keys_append (first second : Bag) : keys (first ++ second) = first.keys ++ second.keys :=
  List.map_append

/-- Members behind others are found under the keys that those do not have. -/
theorem get?_append (first second : Bag) (key : String) :
    Bag.get? (first ++ second) key = (first.get? key).or (second.get? key) := by
  induction first with
  | nil => rfl
  | cons m rest ih =>
      obtain ⟨k, v⟩ := m
      unfold get? at ih ⊢
      by_cases hkey : k = key
      · simp [Json.lookup, hkey]
      · simpa [Json.lookup, hkey] using ih

/-- Data without some keys have the values of the data under all other keys. -/
theorem get?_filter (bag : Bag) (keeps : String → Bool) (key : String) :
    get? (bag.filter fun m => keeps m.1) key = if keeps key = true then bag.get? key else none := by
  induction bag with
  | nil =>
      split <;> rfl
  | cons m rest ih =>
      obtain ⟨k, v⟩ := m
      unfold get? at ih ⊢
      by_cases hkey : k = key
      · subst hkey
        by_cases hkeeps : keeps k = true
        · simp [hkeeps, Json.lookup]
        · simp [hkeeps, ih]
      · by_cases hkeeps : keeps k = true
        · simp [hkeeps, Json.lookup, hkey, ih]
        · simp [hkeeps, Json.lookup, hkey, ih]

theorem keys_filter (bag : Bag) (keeps : String → Bool) :
    keys (bag.filter fun m => keeps m.1) = bag.keys.filter keeps := by
  unfold keys
  rw [List.filter_map]
  rfl

/-- Bags are the same if they have the same keys in the same order and the same values under them. -/
theorem ext_get? {a b : Bag} (hnodup : a.keys.Nodup) (hkeys : a.keys = b.keys)
    (h : ∀ key, a.get? key = b.get? key) : a = b := by
  have hlength : a.length = b.length := by simpa [keys] using congrArg List.length hkeys
  refine List.ext_getElem hlength fun i hi hi' => ?_
  have hkey : a[i].1 = b[i].1 := by
    have hentry : a.keys[i]? = b.keys[i]? := by rw [hkeys]
    simpa [keys, hi, hi'] using hentry
  have hvalue := h a[i].1
  rw [get?_of_mem hnodup (List.getElem_mem hi), hkey,
    get?_of_mem (hkeys ▸ hnodup) (List.getElem_mem hi')] at hvalue
  exact Prod.ext hkey (Option.some.inj hvalue)

/-! ## Bags within bags -/

theorem sizeOf_lt_of_get? {bag nested : Bag} {key : String} (h : bag.get? key = some (.object nested)) :
    sizeOf nested < sizeOf bag := by
  induction bag with
  | nil => cases h
  | cons m rest ih =>
      obtain ⟨k, v⟩ := m
      by_cases hkey : k = key
      · obtain rfl : v = .object nested := by simpa [get?, Json.lookup, hkey] using h
        simp only [List.cons.sizeOf_spec, Prod.mk.sizeOf_spec, Json.object.sizeOf_spec]
        omega
      · have hrest : get? rest key = some (.object nested) := by
          simpa [get?, Json.lookup, hkey] using h
        have hsmaller := ih hrest
        simp only [List.cons.sizeOf_spec]
        omega

/-- What holds of a bag as soon as it holds of the bags under its keys, holds of every bag. -/
theorem induction_nested {P : Bag → Prop}
    (h : ∀ bag, (∀ key nested, bag.get? key = some (.object nested) → P nested) → P bag) (bag : Bag) : P bag :=
  h bag fun _ nested hnested =>
    have _ := sizeOf_lt_of_get? hnested
    induction_nested h nested
termination_by sizeOf bag

theorem distinctMembers_iff {members : Bag} : Json.DistinctMembers members ↔ ∀ m ∈ members, m.2.Distinct := by
  induction members with
  | nil => simp [Json.DistinctMembers]
  | cons m rest ih => simp [Json.DistinctMembers, ih]

/-- A bag has no key twice, at any depth, if it has none twice itself and the values under its keys have not. -/
theorem distinct_iff {bag : Bag} :
    (Json.object bag).Distinct ↔ bag.keys.Nodup ∧ ∀ key value, bag.get? key = some value → value.Distinct := by
  rw [Json.Distinct, distinctMembers_iff]
  refine and_congr_right fun hkeys => ⟨fun h key value hvalue => h _ (mem_of_get? hvalue), fun h m hm => ?_⟩
  exact h m.1 m.2 (get?_of_mem hkeys hm)

end SearchLab.Bag
