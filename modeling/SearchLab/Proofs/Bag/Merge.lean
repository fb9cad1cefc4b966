import SearchLab.Bag.Merge
import SearchLab.Proofs.Bag

/-!
# What merging leads to

Merging goes through the members of a bag one by one and changes the other bag under their keys. `merged` says what that
comes to, all members at once: those of the first bag in their places, each combined with what the second one has under
its key, and behind them the members of the second one that the first lacks. All that has to be known of it are its keys
(`keys_merged`) and its values (`get?_merged`).

* `mergeMembers_spec` — merging in place comes to `merged`, and is refused exactly where both bags hold objects along a
  path of more keys than there is room for;
* `merged_merged` — merging the same bag again changes nothing;
* `merge_combines_or_refuses` — both for two bags.
-/

namespace SearchLab.Bag

variable {a b source target : Bag} {key : String} {value : Json} {room : Nat}

/-! ## All members at once -/

mutual

/-- What stands under a key that both bags have: two objects are merged, and else the newcomer stands. -/
def combined : Json → Json → Json
  | .object a, .object b => .object (combinedMembers b a ++ b.filter fun m => !(keys a).contains m.1)
  | _, newcomer => newcomer

/-- The members of a bag, each combined with what another bag has under its key. -/
def combinedMembers (b : Bag) : List (String × Json) → Bag
  | [] => []
  | (key, value) :: rest => (key, (b.get? key).elim value (combined value)) :: combinedMembers b rest

end

/-- The members of a bag, combined with those of another one, and behind them the members that only the other has. -/
def merged (a b : Bag) : Bag := combinedMembers b a ++ b.filter fun m => !a.keys.contains m.1

/-- What the values of two bags under a key come to. -/
def standing (old : Option Json) : Option Json → Option Json
  | some newcomer => some (old.elim newcomer fun value => combined value newcomer)
  | none => old

theorem combined_objects (a b : Bag) : combined (.object a) (.object b) = .object (merged a b) := by
  rw [combined, merged]

/-- Unless both values are objects, the newcomer stands. -/
theorem combined_eq_newcomer {old newcomer : Json} (h : ∀ a b, old = .object a → newcomer ≠ .object b) :
    combined old newcomer = newcomer := by
  unfold combined
  split
  · exact absurd rfl (h _ _ rfl)
  · rfl

theorem keys_combinedMembers (b members : Bag) : keys (combinedMembers b members) = members.keys := by
  induction members with
  | nil => rw [combinedMembers]
  | cons m rest ih =>
      obtain ⟨k, v⟩ := m
      rw [combinedMembers]
      exact congrArg (List.cons k) ih

theorem get?_combinedMembers (b members : Bag) (key : String) :
    (combinedMembers b members).get? key =
      (members.get? key).map fun value => (b.get? key).elim value (combined value) := by
  induction members with
  | nil =>
      rw [combinedMembers]
      rfl
  | cons m rest ih =>
      obtain ⟨k, v⟩ := m
      rw [combinedMembers]
      unfold get? at ih ⊢
      by_cases hkey : k = key
      · simp [Json.lookup, hkey]
      · simp [Json.lookup, hkey, ih]

/-- The keys of the first bag come first, and behind them those that only the second one has. -/
theorem keys_merged (a b : Bag) : (merged a b).keys = a.keys ++ b.keys.filter fun key => !a.keys.contains key := by
  rw [merged, keys_append, keys_combinedMembers, keys_filter b fun key => !a.keys.contains key]

/-- The keys of merged bags are those of the two. -/
theorem mem_keys_merged : key ∈ (merged a b).keys ↔ key ∈ a.keys ∨ key ∈ b.keys := by
  rw [keys_merged]
  by_cases hkey : key ∈ a.keys <;> simp [hkey]

/-- The keys of bags that were merged one after the other are those of all of them. -/
theorem mem_keys_foldl_merged {bags : List Bag} {start : Bag} :
    key ∈ (bags.foldl merged start).keys ↔ key ∈ start.keys ∨ ∃ bag ∈ bags, key ∈ bag.keys := by
  induction bags generalizing start with
  | nil => simp
  | cons bag rest ih => simp [ih, mem_keys_merged, or_assoc]

/-- Bags that were merged are empty if each of them is. -/
theorem foldl_merged_eq_nil_iff {bags : List Bag} : bags.foldl merged [] = [] ↔ ∀ bag ∈ bags, bag = [] := by
  constructor
  · intro h bag hbag
    refine eq_nil_iff_keys.mpr fun key hkey => ?_
    have hmem : key ∈ (bags.foldl merged []).keys := mem_keys_foldl_merged.mpr (.inr ⟨bag, hbag, hkey⟩)
    exact eq_nil_iff_keys.mp h key hmem
  · intro h
    refine eq_nil_iff_keys.mpr fun key hkey => ?_
    rcases mem_keys_foldl_merged.mp hkey with hkey | ⟨bag, hbag, hkey⟩
    · exact eq_nil_iff_keys.mp rfl key hkey
    · exact eq_nil_iff_keys.mp (h bag hbag) key hkey

/-- Under each key stands what its values in the two bags come to. -/
theorem get?_merged (a b : Bag) (key : String) : (merged a b).get? key = standing (a.get? key) (b.get? key) := by
  rw [merged, get?_append, get?_combinedMembers, get?_filter b fun key => !a.keys.contains key]
  cases hold : a.get? key with
  | none =>
      have hnew : key ∉ a.keys := get?_eq_none_iff.mp hold
      cases b.get? key <;> simp [hnew, standing]
  | some old =>
      cases b.get? key <;> rfl

theorem nodup_keys_merged (ha : a.keys.Nodup) (hb : b.keys.Nodup) : (merged a b).keys.Nodup := by
  rw [keys_merged]
  refine List.nodup_append.mpr ⟨ha, hb.filter _, ?_⟩
  rintro key hkey key' hkey' rfl
  simp [hkey] at hkey'

/-- Nothing is there that could be combined. -/
theorem merged_nil (b : Bag) : merged [] b = b := by
  simp [merged, combinedMembers, keys]

/-- Merged bags have no key twice at any depth. -/
theorem distinct_merged (ha : (Json.object a).Distinct) (hb : (Json.object b).Distinct) :
    (Json.object (merged a b)).Distinct := by
  induction a using induction_nested generalizing b with
  | h a ih =>
    obtain ⟨hakeys, havalues⟩ := distinct_iff.mp ha
    obtain ⟨hbkeys, hbvalues⟩ := distinct_iff.mp hb
    refine distinct_iff.mpr ⟨nodup_keys_merged hakeys hbkeys, fun key value hvalue => ?_⟩
    rw [get?_merged] at hvalue
    cases hnew : b.get? key with
    | none =>
        rw [hnew] at hvalue
        exact havalues key value hvalue
    | some newcomer =>
        have hnewcomer := hbvalues key newcomer hnew
        rw [hnew] at hvalue
        cases hold : a.get? key with
        | none =>
            rw [hold] at hvalue
            exact Option.some.inj hvalue ▸ hnewcomer
        | some old =>
            rw [hold] at hvalue
            obtain rfl : combined old newcomer = value := Option.some.inj hvalue
            by_cases hobjects : ∃ a' b', old = .object a' ∧ newcomer = .object b'
            · obtain ⟨a', b', rfl, rfl⟩ := hobjects
              rw [combined_objects]
              exact ih key a' hold (havalues key _ hold) hnewcomer
            · rwa [combined_eq_newcomer fun a' b' hold hnew => hobjects ⟨a', b', hold, hnew⟩]

/-! ## Merging again -/

/-- A bag that is merged into itself stays as it is. -/
theorem merged_self (hb : (Json.object b).Distinct) : merged b b = b := by
  induction b using induction_nested with
  | h b ih =>
    obtain ⟨hkeys, hvalues⟩ := distinct_iff.mp hb
    refine ext_get? (nodup_keys_merged hkeys hkeys) (by simp [keys_merged]) fun key => ?_
    rw [get?_merged]
    cases hget : b.get? key with
    | none => rfl
    | some value =>
        change some (combined value value) = some value
        cases value with
        | object nested => rw [combined_objects, ih key nested hget (hvalues key _ hget)]
        | _ => rw [combined_eq_newcomer (by simp)]

/-- **Merging the same bag again changes nothing.** -/
theorem merged_merged (ha : (Json.object a).Distinct) (hb : (Json.object b).Distinct) :
    merged (merged a b) b = merged a b := by
  induction a using induction_nested generalizing b with
  | h a ih =>
    obtain ⟨hakeys, havalues⟩ := distinct_iff.mp ha
    obtain ⟨hbkeys, hbvalues⟩ := distinct_iff.mp hb
    have hnodup := nodup_keys_merged hakeys hbkeys
    refine ext_get? (nodup_keys_merged hnodup hbkeys) ?_ fun key => ?_
    · have hnothing : b.keys.filter (fun key => !(merged a b).keys.contains key) = [] := by
        rw [List.filter_eq_nil_iff]
        intro key hkey
        by_cases hold : key ∈ a.keys <;> simp [keys_merged, hkey, hold]
      rw [keys_merged (merged a b), hnothing, List.append_nil]
    rw [get?_merged (merged a b), get?_merged a b]
    cases hnew : b.get? key with
    | none => rfl
    | some newcomer =>
        have hself : combined newcomer newcomer = newcomer := by
          cases newcomer with
          | object nested => rw [combined_objects, merged_self (hbvalues key _ hnew)]
          | _ => rw [combined_eq_newcomer (by simp)]
        cases hold : a.get? key with
        | none => exact congrArg some hself
        | some old =>
            change some (combined (combined old newcomer) newcomer) = some (combined old newcomer)
            by_cases hobjects : ∃ a' b', old = .object a' ∧ newcomer = .object b'
            · obtain ⟨a', b', rfl, rfl⟩ := hobjects
              rw [combined_objects, combined_objects, ih key a' hold (havalues key _ hold) (hbvalues key _ hnew)]
            · rw [combined_eq_newcomer fun a' b' hold hnew => hobjects ⟨a', b', hold, hnew⟩, hself]

/-! ## Objects along a path -/

/-- At every step along a path of keys both bags hold objects. -/
def SharePath : List String → Bag → Bag → Prop
  | [], _, _ => True
  | key :: path, a, b =>
    ∃ a' b', a.get? key = some (.object a') ∧ b.get? key = some (.object b') ∧ SharePath path a' b'

/-- Two bags hold objects along some path of so many keys. -/
def ShareObjects (depth : Nat) (a b : Bag) : Prop := ∃ path, path.length = depth ∧ SharePath path a b

theorem shareObjects_zero (a b : Bag) : ShareObjects 0 a b := ⟨[], rfl, trivial⟩

/-- A path begins with a key under which both bags hold objects. -/
theorem shareObjects_succ_iff {depth : Nat} : ShareObjects (depth + 1) a b ↔
    ∃ key a' b', a.get? key = some (.object a') ∧ b.get? key = some (.object b') ∧ ShareObjects depth a' b' := by
  constructor
  · rintro ⟨path, hlength, hpath⟩
    cases path with
    | nil => cases hlength
    | cons key path =>
        obtain ⟨a', b', ha, hb, hrest⟩ := hpath
        exact ⟨key, a', b', ha, hb, path, Nat.succ.inj hlength, hrest⟩
  · rintro ⟨key, a', b', ha, hb, path, rfl, hpath⟩
    exact ⟨key :: path, rfl, a', b', ha, hb, hpath⟩

/-- A value is too deep for what stands under its key: both are objects, and they share a path of more keys than there
is room for. -/
def TooDeep (room : Nat) (old : Option Json) (value : Json) : Prop :=
  ∃ a b, old = some (.object a) ∧ value = .object b ∧ ShareObjects room a b

/-- A path through the members of a bag begins at the first of them or at one of the others. -/
theorem shareObjects_cons_iff {rest : Bag} (hnew : key ∉ rest.keys) :
    ShareObjects (room + 1) target ((key, value) :: rest) ↔
      TooDeep room (target.get? key) value ∨ ShareObjects (room + 1) target rest := by
  have hfirst : get? ((key, value) :: rest) key = some value := by simp [get?, Json.lookup]
  have hother : ∀ {other}, other ≠ key → get? ((key, value) :: rest) other = rest.get? other := by
    intro other hother
    simp [get?, Json.lookup, Ne.symm hother]
  rw [shareObjects_succ_iff, shareObjects_succ_iff]
  constructor
  · rintro ⟨other, a', b', ha, hb, hpath⟩
    by_cases hkey : other = key
    · subst hkey
      rw [hfirst] at hb
      exact .inl ⟨a', b', ha, Option.some.inj hb, hpath⟩
    · rw [hother hkey] at hb
      exact .inr ⟨other, a', b', ha, hb, hpath⟩
  · rintro (⟨a', b', ha, rfl, hpath⟩ | ⟨other, a', b', ha, hb, hpath⟩)
    · exact ⟨key, a', b', ha, hfirst, hpath⟩
    · have hkey : other ≠ key := by
        rintro rfl
        exact hnew (mem_keys_of_get? hb)
      exact ⟨other, a', b', ha, (hother hkey).trans hb, hpath⟩

/-- Keys that the second bag does not have make no difference. -/
theorem shareObjects_set_iff (hnew : key ∉ b.keys) :
    ShareObjects (room + 1) (a.set key value) b ↔ ShareObjects (room + 1) a b := by
  rw [shareObjects_succ_iff, shareObjects_succ_iff]
  refine exists_congr fun other => exists_congr fun a' => exists_congr fun b' => ?_
  by_cases hkey : key = other
  · subst hkey
    simp [get?_eq_none_iff.mpr hnew]
  · rw [get?_set, if_neg hkey]

/-! ## Member by member -/

/-- Of the members that are merged, the first may be merged before the others. -/
theorem merged_cons {rest : Bag} (htarget : target.keys.Nodup) (hnew : key ∉ rest.keys) (hrest : rest.keys.Nodup) :
    merged (target.set key ((target.get? key).elim value fun old => combined old value)) rest =
      merged target ((key, value) :: rest) := by
  have hset := nodup_keys_set key ((target.get? key).elim value fun old => combined old value) htarget
  refine ext_get? (nodup_keys_merged hset hrest) ?_ fun other => ?_
  · have hcons : keys ((key, value) :: rest) = key :: rest.keys := rfl
    rw [keys_merged, keys_merged, keys_set, hcons, List.filter_cons]
    by_cases hkey : key ∈ target.keys
    · simp [hkey]
    · have hothers : rest.keys.filter (fun other => !(target.keys ++ [key]).contains other) =
          rest.keys.filter fun other => !target.keys.contains other := by
        refine List.filter_congr fun other hother => ?_
        have hne : other ≠ key := fun hsame => hnew (hsame ▸ hother)
        simp [hne]
      simp [hkey] at hothers ⊢
      exact hothers
  · rw [get?_merged, get?_merged, get?_set, get?_cons]
    by_cases hkey : key = other
    · subst hkey
      rw [if_pos rfl, if_pos rfl, get?_eq_none_iff.mpr hnew]
      rfl
    · rw [if_neg hkey, if_neg hkey]

/-- What merging the members of a bag in place comes to, where so many levels of objects may be gone down: all of them
are merged, unless both bags share a path of more levels. -/
def Comes (room : Nat) (source target : Bag) : Prop :=
  (¬ ShareObjects (room + 1) target source → mergeMembers room source target = .ok () (merged target source)) ∧
    (ShareObjects (room + 1) target source → ∃ part, mergeMembers room source target = .error .mergeTooDeep part)

/-- A value takes the place of what stands under its key, combined with it, unless it is too deep. -/
theorem mergeValue_spec (room : Nat) (target : Bag) (key : String) (value : Json)
    (hnested : ∀ smaller a b, room = smaller + 1 → target.get? key = some (.object a) → value = .object b →
      Comes smaller b a) :
    (¬ TooDeep room (target.get? key) value → mergeValue room key value target =
        .ok () (target.set key ((target.get? key).elim value fun old => combined old value))) ∧
      (TooDeep room (target.get? key) value →
        ∃ part, mergeValue room key value target = .error .mergeTooDeep part) := by
  by_cases hobjects : ∃ a b, target.get? key = some (.object a) ∧ value = .object b
  · obtain ⟨a, b, hold, rfl⟩ := hobjects
    have hdeep : TooDeep room (target.get? key) (.object b) ↔ ShareObjects room a b := by
      constructor
      · rintro ⟨a', b', hold', hb', hshare⟩
        cases hold.symm.trans hold'
        cases hb'
        exact hshare
      · exact fun hshare => ⟨a, b, hold, rfl, hshare⟩
    rw [hdeep, mergeValue, hold]
    cases room with
    | zero => exact ⟨fun hfits => absurd (shareObjects_zero a b) hfits, fun _ => ⟨target, rfl⟩⟩
    | succ smaller =>
        obtain ⟨hfits, hfails⟩ := hnested smaller a b rfl hold rfl
        refine ⟨fun hshallow => ?_, fun hshare => ?_⟩
        · simp only [hfits hshallow, Option.elim_some, combined_objects]
        · obtain ⟨part, hpart⟩ := hfails hshare
          simp only [hpart]
          exact ⟨_, rfl⟩
  · have hplain : mergeValue room key value target = .ok () (target.set key value) := by
      cases value with
      | object nested =>
          rw [mergeValue]
          split
          · rename_i existing hold
            exact absurd ⟨existing, nested, hold, rfl⟩ hobjects
          · rfl
      | _ => rw [mergeValue]; simp
    refine ⟨fun _ => ?_, fun ⟨a, b, hold, hvalue, _⟩ => absurd ⟨a, b, hold, hvalue⟩ hobjects⟩
    rw [hplain]
    cases hold : target.get? key with
    | none => rfl
    | some old =>
        rw [Option.elim_some, combined_eq_newcomer]
        rintro a b rfl rfl
        exact hobjects ⟨a, b, hold, rfl⟩

/-- The members of a bag are merged one after the other, if the objects among them are. -/
theorem mergeMembers_of_nested
    (hnested : ∀ smaller, room = smaller + 1 → ∀ a b : Bag, (Json.object a).Distinct → (Json.object b).Distinct →
      Comes smaller b a)
    (hsource : (Json.object source).Distinct) (htarget : target.keys.Nodup)
    (hshared : ∀ key ∈ source.keys, ∀ a, target.get? key = some (.object a) → (Json.object a).Distinct) :
    Comes room source target := by
  induction source generalizing target with
  | nil =>
      refine ⟨fun _ => ?_, fun hshare => ?_⟩
      · have hself : merged target [] = target := ext_get? (nodup_keys_merged htarget List.nodup_nil)
          (by rw [keys_merged]; simp [keys]) fun key => by rw [get?_merged]; rfl
        rw [mergeMembers, hself]
      · obtain ⟨key, a, b, -, hb, -⟩ := shareObjects_succ_iff.mp hshare
        cases hb
  | cons m rest ih =>
      obtain ⟨key, value⟩ := m
      obtain ⟨hkeys, hvalues⟩ := distinct_iff.mp hsource
      obtain ⟨hnew, hrestKeys⟩ : key ∉ keys rest ∧ (keys rest).Nodup := List.nodup_cons.mp hkeys
      have hvalue : value.Distinct := hvalues key value (by rw [get?_cons, if_pos rfl])
      have hrest : (Json.object rest).Distinct := by
        refine distinct_iff.mpr ⟨hrestKeys, fun other v hv => hvalues other v ?_⟩
        rw [get?_cons, if_neg fun hsame : key = other => hnew (hsame ▸ mem_keys_of_get? hv), hv]
      obtain ⟨hfits, hfails⟩ := mergeValue_spec room target key value <| by
        rintro smaller a b hroom hold rfl
        exact hnested smaller hroom a b (hshared key List.mem_cons_self a hold) hvalue
      -- What the first member changes stands under its own key, so the others find what was there before.
      have hothers : Comes room rest
          (target.set key ((target.get? key).elim value fun old => combined old value)) := by
        refine ih hrest (nodup_keys_set key _ htarget) fun other hother a hold => ?_
        rw [get?_set, if_neg fun hsame : key = other => hnew (hsame ▸ hother)] at hold
        exact hshared other (List.mem_cons_of_mem key hother) a hold
      rw [Comes, shareObjects_set_iff hnew, merged_cons htarget hnew hrestKeys] at hothers
      rw [Comes, shareObjects_cons_iff hnew, mergeMembers]
      refine ⟨fun hshallow => ?_, fun hdeep => ?_⟩
      · rw [hfits fun hdeep => hshallow (.inl hdeep)]
        exact hothers.1 fun hdeep => hshallow (.inr hdeep)
      · by_cases hfirst : TooDeep room (target.get? key) value
        · obtain ⟨part, hpart⟩ := hfails hfirst
          exact ⟨part, by rw [hpart]⟩
        · obtain ⟨part, hpart⟩ := hothers.2 (hdeep.resolve_left hfirst)
          exact ⟨part, by rw [hfits hfirst]; exact hpart⟩

/-- **What merging in place comes to.** The induction goes down one level of objects after the other. -/
theorem mergeMembers_spec (room : Nat) (ha : (Json.object a).Distinct) (hb : (Json.object b).Distinct) :
    Comes room b a := by
  obtain ⟨hkeys, hvalues⟩ := distinct_iff.mp ha
  have hshared : ∀ key ∈ b.keys, ∀ nested, a.get? key = some (.object nested) → (Json.object nested).Distinct :=
    fun key _ nested hnested => hvalues key _ hnested
  induction room generalizing a b with
  | zero => exact mergeMembers_of_nested (fun smaller hroom => by cases hroom) hb hkeys hshared
  | succ room ih =>
      refine mergeMembers_of_nested (fun smaller hroom a' b' ha' hb' => ?_) hb hkeys hshared
      cases hroom
      obtain ⟨hkeys', hvalues'⟩ := distinct_iff.mp ha'
      exact ih ha' hb' hkeys' hvalues' fun key _ nested hnested => hvalues' key _ hnested

/-! ## Two bags -/

/-- Merging a bag into another one fails where the two share a path of the greatest depth, and else comes to what
`merged` says. -/
theorem mergeWith_spec (ha : (Json.object a).Distinct) (hb : (Json.object b).Distinct) :
    (¬ ShareObjects maxDepth a b → mergeWith b a = .ok () (merged a b)) ∧
      (ShareObjects maxDepth a b → ∃ part, mergeWith b a = .error .mergeTooDeep part) :=
  mergeMembers_spec (maxDepth - 1) ha hb

/-- Merging succeeds only with what `merged` says. -/
theorem eq_merged_of_mergeWith {m : Bag} (ha : (Json.object a).Distinct) (hb : (Json.object b).Distinct)
    (h : mergeWith b a = .ok () m) : m = merged a b := by
  obtain ⟨hfits, hfails⟩ := mergeWith_spec ha hb
  by_cases hshare : ShareObjects maxDepth a b
  · obtain ⟨part, hpart⟩ := hfails hshare
    rw [hpart] at h
    cases h
  · rw [hfits hshare] at h
    cases h
    rfl

/-- Two bags are merged as the second one is into the first. -/
theorem merge_eq (ha : (Json.object a).Distinct) (b : Bag) :
    merge a b = match mergeWith b a with
      | .ok _ m => .ok m
      | .error e _ => .error e := by
  have hempty : (Json.object []).Distinct := distinct_iff.mpr ⟨List.nodup_nil, by simp [get?, Json.lookup]⟩
  have hcopied : mergeWith a [] = .ok () a := by
    have hcopy := (mergeWith_spec hempty ha).1
    rw [merged_nil] at hcopy
    refine hcopy fun hshare => ?_
    obtain ⟨key, a', b', hnone, -⟩ := shareObjects_succ_iff.mp hshare
    cases hnone
  rw [merge, hcopied]
  dsimp only
  split <;> rename_i h <;> simp [h]

/-- **Merging goes into objects, and no deeper than it may.** Of two bags without a key twice: merging them is refused
if there is a path of `maxDepth` keys at every step of which both hold objects. Otherwise the keys of the first bag come
first, in their order, and behind them those that only the second one has, in theirs. Under a key of one bag its value
stands, and under a key of both that of the second one, unless both are objects: then these merged, in the same way.
Merging the second bag into the first in place leads to the same wherever it succeeds, and succeeds in the same cases.
And if merging the second bag in once more succeeds, it changes nothing, be it of two bags or in place. -/
theorem merge_combines_or_refuses (ha : (Json.object a).Distinct) (hb : (Json.object b).Distinct) :
    (∀ path, path.length = maxDepth → SharePath path a b → merge a b = .error .mergeTooDeep) ∧
      ((∀ path, path.length = maxDepth → ¬ SharePath path a b) → merge a b = .ok (merged a b)) ∧
      (merged a b).keys = a.keys ++ b.keys.filter (fun key => !a.keys.contains key) ∧
      (∀ key, b.get? key = none → (merged a b).get? key = a.get? key) ∧
      (∀ key value, b.get? key = some value → (∀ a' b', a.get? key = some (.object a') → value ≠ .object b') →
        (merged a b).get? key = some value) ∧
      (∀ key a' b', a.get? key = some (.object a') → b.get? key = some (.object b') →
        (merged a b).get? key = some (.object (merged a' b'))) ∧
      (∀ m, mergeWith b a = .ok () m ↔ merge a b = .ok m) ∧
      ∀ m m', merge a b = .ok m → merge m b = .ok m' ∨ mergeWith b m = .ok () m' → m' = m := by
  obtain ⟨hfits, hfails⟩ := mergeWith_spec ha hb
  have hsame : ∀ {c m}, (Json.object c).Distinct → (mergeWith b c = .ok () m ↔ merge c b = .ok m) := by
    intro c m hc
    rw [merge_eq hc]
    cases mergeWith b c <;> simp
  refine ⟨fun path hlength hpath => ?_, fun hshallow => ?_, keys_merged a b, fun key hnew => ?_,
    fun key value hnew hplain => ?_, fun key a' b' hold hnew => ?_, fun m => hsame ha, fun m m' hm hm' => ?_⟩
  · obtain ⟨part, hpart⟩ := hfails ⟨path, hlength, hpath⟩
    rw [merge_eq ha, hpart]
  · exact (hsame ha).mp (hfits fun ⟨path, hlength, hpath⟩ => hshallow path hlength hpath)
  · rw [get?_merged, hnew, standing]
  · rw [get?_merged, hnew, standing]
    cases hold : a.get? key with
    | none => rfl
    | some old =>
        rw [Option.elim_some, combined_eq_newcomer]
        rintro a' b' rfl
        exact hplain a' b' hold
  · rw [get?_merged, hold, hnew, standing, Option.elim_some, combined_objects]
  · obtain rfl := eq_merged_of_mergeWith ha hb ((hsame ha).mpr hm)
    have hdistinct := distinct_merged ha hb
    have hagain : mergeWith b (merged a b) = .ok () m' := hm'.elim (hsame hdistinct).mpr id
    rw [eq_merged_of_mergeWith hdistinct hb hagain, merged_merged ha hb]

/-- A label that is new, a point that is moved, and a value that becomes an object. -/
theorem merge_combines_or_refuses_sample :
    merge [("at", .object [("x", .int 1), ("y", .int 2)]), ("old", .null)]
        [("label", .text "A"), ("at", .object [("y", .int 3)]), ("old", .object [])] =
      .ok [("at", .object [("x", .int 1), ("y", .int 3)]), ("old", .object []), ("label", .text "A")] := by
  refine (merge_combines_or_refuses ?_ ?_).2.1 fun path hlength hpath => ?_
  · simp [Json.Distinct, Json.DistinctMembers, Json.int]
  · simp [Json.Distinct, Json.DistinctMembers, Json.int]
  · -- Only the points are objects in both bags, and what they hold are numbers.
    obtain ⟨key, a, b, ha, hb, hrest⟩ := shareObjects_succ_iff.mp ⟨path, hlength, hpath⟩
    obtain ⟨key', a', b', ha', -⟩ := shareObjects_succ_iff.mp hrest
    simp only [get?, Json.lookup] at ha
    split at ha
    · cases ha
      simp only [get?, Json.lookup, Json.int] at ha'
      repeat' split at ha'
      all_goals cases ha'
    · split at ha <;> cases ha

end SearchLab.Bag
