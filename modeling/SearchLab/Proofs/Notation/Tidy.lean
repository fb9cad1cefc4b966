import SearchLab.Bag.Merge
import SearchLab.Proofs.Edit
import SearchLab.Proofs.Json.Readable
import SearchLab.Proofs.Notation.Reread

/-!
# Data that a document can lead to

Data are tidy when they hold no object under `style` and no number that a text cannot spell. The data of a statement are
tidy, since their style is kept apart, and whatever is made of tidy data by setting and merging is tidy again.

* `keeps_mergeWith` — merging;
* `tidy_of_ofLine?` — the data of a statement.
-/

namespace SearchLab

namespace Notation

/-- A member of tidy data. -/
def TidyMember (m : String × Json) : Prop :=
  (m.1 = "style" → ∀ members, m.2 ≠ .object members) ∧ ∀ n, m.2 = .number n → n.Holds

/-- Data hold no object under `style` and no number that a text cannot spell. -/
def Tidy (data : Bag) : Prop := ∀ m ∈ data, TidyMember m

namespace Tidy

variable {data : Bag}

theorem nil : Tidy [] := by simp [Tidy]

theorem set (h : Tidy data) {key : String} {value : Json} (hmember : TidyMember (key, value)) :
    Tidy (data.set key value) := by
  intro m hm
  rcases Bag.mem_of_mem_set hm with hold | rfl
  · exact h m hold
  · exact hmember

/-- Truth values may be set anywhere. -/
theorem setBool (h : Tidy data) (key : String) (b : Bool) : Tidy (data.set key (.bool b)) :=
  h.set ⟨fun _ _ => by simp, by simp⟩

theorem setAll {news : Bag} (h : Tidy data) (hnews : Tidy news) : Tidy (Grid.setAll data news) := by
  induction news generalizing data with
  | nil => exact h
  | cons m rest ih =>
      obtain ⟨hfirst, hrest⟩ := List.forall_mem_cons.mp hnews
      exact ih (h.set hfirst) hrest

/-- Under a key stands what its member holds. -/
theorem member (h : Tidy data) {key : String} {value : Json} (hget : data.get? key = some value) :
    TidyMember (key, value) :=
  h _ (Bag.mem_of_get? hget)

theorem unstyled (h : Tidy data) : Unstyled data :=
  fun members hget => (h.member hget).1 rfl members rfl

theorem holds (h : Tidy data) {key : String} {n : Number} (hget : data.number? key = some n) : n.Holds := by
  obtain ⟨value, hvalue, hnumber⟩ := Option.bind_eq_some_iff.mp hget
  refine (h.member hvalue).2 n ?_
  cases value with
  | number n' => exact congrArg Json.number (Option.some.inj hnumber)
  | _ => exact absurd hnumber (by simp [Json.number?])

end Tidy

/-! ## Merging -/

/-- Merging one value into tidy data leaves them tidy, also where it is refused. -/
theorem keeps_mergeValue (room : Nat) {m : String × Json} (h : TidyMember m) :
    Edit.Keeps Tidy (Bag.mergeValue room m.1 m.2) := by
  obtain ⟨key, value⟩ := m
  intro target htarget
  have hset : ∀ {members : List (String × Json)}, value = .object members → ∀ merged,
      Tidy (target.set key (.object merged)) := by
    rintro members rfl merged
    exact htarget.set ⟨fun hkey _ => absurd rfl (h.1 hkey members), by simp⟩
  have hplain : Tidy (target.set key value) := htarget.set h
  dsimp only
  cases value with
  | object nested =>
      unfold Edit.after Bag.mergeValue
      cases hget : target.get? key with
      | none => exact hplain
      | some existing =>
          cases existing with
          | object members =>
              cases room with
              | zero => exact htarget
              | succ room =>
                  dsimp only
                  cases Bag.mergeMembers room nested members with
                  | ok u merged => exact hset rfl merged
                  | error e merged => exact hset rfl merged
          | _ => exact hplain
  | _ => exact hplain

/-- **Merging tidy data into tidy data** leaves them tidy, also where it is refused. -/
theorem keeps_mergeWith {source : Bag} (h : Tidy source) : (Bag.mergeWith source).Keeps Tidy := by
  unfold Bag.mergeWith
  generalize Bag.maxDepth - 1 = room
  induction source with
  | nil =>
      intro target htarget
      have hnothing : Bag.mergeMembers room [] target = .ok () target := by rw [Bag.mergeMembers]
      rwa [Edit.after_ok hnothing]
  | cons m rest ih =>
      obtain ⟨hfirst, hrest⟩ := List.forall_mem_cons.mp h
      intro target htarget
      have hmiddle := keeps_mergeValue room hfirst target htarget
      cases hvalue : Bag.mergeValue room m.1 m.2 target with
      | ok u next =>
          rw [Edit.after_ok hvalue] at hmiddle
          have hlast := ih hrest next hmiddle
          unfold Edit.after at hlast ⊢
          rwa [Bag.mergeMembers, hvalue]
      | error e next =>
          rw [Edit.after_error hvalue] at hmiddle
          unfold Edit.after
          rwa [Bag.mergeMembers, hvalue]

/-! ## What is read -/

/-- What a text spells is tidy once its style is taken out. -/
theorem tidy_splitStyle {members : Bag} (h : Json.Readable (.object members)) : Tidy members.splitStyle.1 := by
  cases h with
  | object hkeys hmembers =>
      have hnumber : ∀ m ∈ members, ∀ n, m.2 = .number n → n.Holds := by
        intro m hm n hn
        have hreadable := hmembers m hm
        rw [hn] at hreadable
        cases hreadable with
        | number hholds => exact hholds
      intro m hm
      refine ⟨fun hkey ms hobject => ?_, hnumber m ((sublist_splitStyle members).subset hm)⟩
      have hfound := Bag.get?_of_mem hkeys ((sublist_splitStyle members).subset hm)
      rw [hkey, hobject] at hfound
      rw [Bag.splitStyle, hfound] at hm
      exact absurd hkey (by simpa using (List.mem_filter.mp hm).2)

/-- The data and the style of a statement are those of an object that a text spells, or there are none. -/
theorem content_of_ofLine? {line : Line} {s : Statement} (h : Statement.ofLine? line = .ok (some s)) :
    ∃ members : Bag, Json.Readable (.object members) ∧ (s.data, s.style) = members.splitStyle := by
  have hread : ∀ {number column : Nat} {text : List Char} {content : Bag × Bag},
      readData number column text = .ok content →
      ∃ members : Bag, Json.Readable (.object members) ∧ content = members.splitStyle := by
    intro number column text content hcontent
    unfold readData at hcontent
    split at hcontent
    · rename_i members hjson
      cases hcontent
      exact ⟨members, Json.readable_of_read hjson, rfl⟩
    · cases hcontent
    · cases hcontent
  unfold Statement.ofLine? at h
  dsimp only at h
  split at h
  · cases h
  split at h
  · cases h
  split at h
  · cases h
  split at h
  · cases h
  rename_i parts _ _
  cases hdata : parts.data with
  | none =>
      rw [hdata] at h
      cases h
      exact ⟨[], .empty, rfl⟩
  | some placed =>
      obtain ⟨text, column⟩ := placed
      rw [hdata] at h
      dsimp only at h
      cases hcontent : readData line.number column text with
      | error e =>
          rw [hcontent] at h
          cases h
      | ok content =>
          rw [hcontent] at h
          cases h
          exact hread hcontent

/-- **The data of a statement are tidy.** -/
theorem tidy_of_ofLine? {line : Line} {s : Statement} (h : Statement.ofLine? line = .ok (some s)) : Tidy s.data := by
  obtain ⟨members, hreadable, hcontent⟩ := content_of_ofLine? h
  have hdata : s.data = members.splitStyle.1 := congrArg Prod.fst hcontent
  exact hdata ▸ tidy_splitStyle hreadable

/-- Neither the data of a statement nor its style have a key twice. -/
theorem distinct_of_ofLine? {line : Line} {s : Statement} (h : Statement.ofLine? line = .ok (some s)) :
    (Json.object s.data).Distinct ∧ (Json.object s.style).Distinct := by
  obtain ⟨members, hreadable, hcontent⟩ := content_of_ofLine? h
  have hdata : s.data = members.splitStyle.1 := congrArg Prod.fst hcontent
  have hstyle : s.style = members.splitStyle.2 := congrArg Prod.snd hcontent
  obtain ⟨hkeys, hvalues⟩ := Bag.distinct_iff.mp hreadable.distinct
  have hsublist := sublist_splitStyle members
  rw [hdata, hstyle]
  constructor
  · refine Bag.distinct_iff.mpr ⟨hkeys.sublist (hsublist.map Prod.fst), fun key value hvalue => hvalues key value ?_⟩
    exact Bag.get?_of_mem hkeys (hsublist.subset (Bag.mem_of_get? hvalue))
  · unfold Bag.splitStyle
    split
    · rename_i style hget
      exact hvalues "style" _ hget
    · exact Json.Readable.empty.distinct

/-- What reads back has no key twice, nor has its style. -/
theorem nodup_keys_reread_of_readsBack {data style : Bag} (h : (withStyle data style).ReadsBack) :
    (reread data style).1.keys.Nodup ∧ (reread data style).2.keys.Nodup := by
  have hreadable : Json.Readable (.object (withStyle data style)) := Json.readable_of_read h
  cases hreadable with
  | object hkeys hmembers =>
      refine ⟨hkeys.sublist ((sublist_splitStyle _).map Prod.fst), ?_⟩
      unfold reread Bag.splitStyle
      split
      · rename_i members hget
        have hstyle := hmembers _ (Bag.mem_of_get? hget)
        cases hstyle with
        | object hkeys _ => exact hkeys
      · exact List.nodup_nil

end Notation

end SearchLab
