import SearchLab.Proofs.Notation.Payload
import SearchLab.Proofs.Notation.Statement

/-!
# Data that are read and written again

Where data and a style are written together, the style takes the place of whatever the data hold under `style`, and
reading takes it out again. So what is read are the data themselves or all of them but `style`, and what is then written
differs at most in where the style stands.

* `sublist_reread` — what is read of data is part of them;
* `withStyle_reread` — where the style stands last, what was read is written as before.
-/

namespace SearchLab.Notation

/-- Without a key, data are the same before and after the key is set. -/
theorem filter_ne_set (bag : Bag) (key : String) (value : Json) :
    (bag.set key value).filter (fun m => m.1 != key) = bag.filter fun m => m.1 != key := by
  induction bag with
  | nil => simp [Bag.set, Json.store]
  | cons m rest ih =>
      obtain ⟨k, v⟩ := m
      unfold Bag.set at ih ⊢
      by_cases hkey : k = key
      · simp [Json.store, hkey]
      · simp [Json.store, hkey, ih]

/-- What is left of data without their style is part of them. -/
theorem sublist_splitStyle (bag : Bag) : bag.splitStyle.1.Sublist bag := by
  unfold Bag.splitStyle
  split
  · exact List.filter_sublist
  · exact List.Sublist.refl bag

/-- What is read of data is part of them. -/
theorem sublist_reread (data style : Bag) : (reread data style).1.Sublist data := by
  cases style with
  | nil => exact sublist_splitStyle data
  | cons m rest =>
      have hget : (withStyle data (m :: rest)).get? "style" = some (.object (m :: rest)) := by
        simp [withStyle, Bag.get?_set]
      rw [reread, Bag.splitStyle, hget]
      dsimp only
      rw [withStyle, if_neg (by simp), filter_ne_set]
      exact List.filter_sublist

/-- Of what is read, nothing is passed over when it is written. -/
theorem lasting_reread (data style : Bag) (skip : List String) :
    lasting (reread (lasting data skip) style).1 skip = (reread (lasting data skip) style).1 := by
  rw [lasting_eq _ skip, List.filter_eq_self]
  intro m hm
  have hmem := (sublist_reread (lasting data skip) style).subset hm
  rw [lasting_eq] at hmem
  exact (List.mem_filter.mp hmem).2

/-- All keys but `style` have the values that they had. -/
theorem get?_reread (data style : Bag) {key : String} (h : key ≠ "style") :
    (reread data style).1.get? key = data.get? key := by
  have hsplit : ∀ bag : Bag, bag.splitStyle.1.get? key = bag.get? key := by
    intro bag
    unfold Bag.splitStyle
    split
    · rw [Bag.get?_filter bag (fun k => k != "style"), if_pos (by simpa using h)]
    · rfl
  rw [reread, hsplit, withStyle]
  split
  · rfl
  · rw [Bag.get?_set, if_neg h.symm]

/-! ## What is then written -/

/-- Under `style`, data hold no object that reading would take for a style. -/
def Unstyled (data : Bag) : Prop := ∀ members, data.get? "style" ≠ some (.object members)

theorem Unstyled.lasting {data : Bag} (h : Unstyled data) (skip : List String) : Unstyled (lasting data skip) := by
  intro members hget
  rw [get?_lasting] at hget
  split at hget
  · cases hget
  · exact h members hget

/-- Where a style is written, it is not in the place of a member in front of others. -/
def StyleLast (data style : Bag) : Prop := style ≠ [] → "style" ∉ Bag.keys data.dropLast

/-- A style is read as it is, and takes away what the data held in its place. -/
theorem reread_of_unstyled {data : Bag} (h : Unstyled data) (style : Bag) :
    reread data style = (if style = [] then data else data.filter fun m => m.1 != "style", style) := by
  cases style with
  | nil =>
      rw [reread, withStyle, if_pos List.isEmpty_nil, Bag.splitStyle, if_pos rfl]
      split
      · rename_i members hget
        exact absurd hget (h members)
      · rfl
  | cons m rest =>
      have hget : (withStyle data (m :: rest)).get? "style" = some (.object (m :: rest)) := by
        simp [withStyle, Bag.get?_set]
      rw [reread, Bag.splitStyle, hget, if_neg (List.cons_ne_nil m rest)]
      dsimp only
      rw [withStyle, if_neg (by simp), filter_ne_set]

/-- A key of at most the last member is set behind all other members. -/
theorem set_of_last {data : Bag} {key : String} (value : Json) (h : key ∉ Bag.keys data.dropLast) :
    data.set key value = (data.filter fun m => m.1 != key) ++ [(key, value)] := by
  induction data with
  | nil => rfl
  | cons m rest ih =>
      obtain ⟨k, v⟩ := m
      cases rest with
      | nil =>
          by_cases hkey : k = key
          · simp [Bag.set, Json.store, hkey]
          · simp [Bag.set, Json.store, hkey]
      | cons m' rest =>
          have hparts : key ≠ k ∧ key ∉ Bag.keys (m' :: rest).dropLast := by
            rw [List.dropLast_cons_cons] at h
            simpa [Bag.keys] using h
          have hkey : k ≠ key := hparts.1.symm
          have hhead : Bag.set ((k, v) :: m' :: rest) key value = (k, v) :: Bag.set (m' :: rest) key value := by
            simp [Bag.set, Json.store, hkey]
          have hkept : ((k, v) :: m' :: rest).filter (fun m => m.1 != key) =
              (k, v) :: (m' :: rest).filter fun m => m.1 != key := List.filter_cons_of_pos (by simpa using hkey)
          rw [hhead, ih hparts.2, hkept, List.cons_append]

/-- **What was read is written as before**, where the style stands last. -/
theorem withStyle_reread {data style : Bag} (hunstyled : Unstyled data) (hlast : StyleLast data style) :
    withStyle (reread data style).1 (reread data style).2 = withStyle data style := by
  rw [reread_of_unstyled hunstyled]
  cases style with
  | nil => rfl
  | cons m rest =>
      have hfree : Bag.get? (data.filter fun m => m.1 != "style") "style" = none := by
        rw [Bag.get?_filter data (fun k => k != "style"), if_neg (by simp)]
      rw [if_neg (List.cons_ne_nil m rest), withStyle, withStyle, if_neg (by simp), if_neg (by simp),
        Bag.set_of_get?_eq_none _ hfree, set_of_last _ (hlast (List.cons_ne_nil m rest))]

end SearchLab.Notation
