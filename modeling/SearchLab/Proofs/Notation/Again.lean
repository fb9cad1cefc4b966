import SearchLab.Proofs.Double.Rounding
import SearchLab.Proofs.Notation.Accepted
import SearchLab.Proofs.Notation.FreeForm
import SearchLab.Proofs.Notation.Grid

/-!
# Documents that are written again

Of a graph that was read, the document is read, and what is read of it is written once more. A free-form graph has its
nodes and edges from this document alone, so what the document says decides what is written. In a grid both graphs come
of the same new lattice (`Pair`), so their cells and edges are in the same slots, and the lines are compared one by one:
of an edge, what the lattice implies is passed over both times (`edgeData_again`).

* `FreeForm.again`, `Grid.again` — each kind of document;
* `write_again` — any document that was read.
-/

namespace SearchLab

theorem Number.Holds.isInf_toFloat {n : Number} (h : n.Holds) : n.toFloat.isInf = false := by
  cases n with
  | int n =>
      obtain ⟨hlow, hhigh⟩ := h
      have hhalf : (Word.half : Int) = 2 ^ 63 := by norm_num [Word.half]
      have hsize : (Word.size : Int) = 2 ^ 64 := by norm_num [Word.size]
      exact Double.isInf_ofInt (by omega) (by omega)
  | float x => exact h

namespace Notation

open SearchLab.Graph

/-- What was read is written as before, where the style stands last. -/
theorem payload?_reread {data style : Bag} (hunstyled : Unstyled data) (hlast : StyleLast data style) :
    payload? (reread data style).1 (reread data style).2 = payload? data style := by
  unfold payload?
  rw [withStyle_reread hunstyled hlast]

theorem setAll_cons_of_notMem {m : String × Json} {bag news : Bag} (h : m.1 ∉ news.keys) :
    Grid.setAll (m :: bag) news = m :: Grid.setAll bag news := by
  induction news generalizing bag with
  | nil => rfl
  | cons n rest ih =>
      obtain ⟨k, v⟩ := m
      obtain ⟨k', v'⟩ := n
      have hparts : k ≠ k' ∧ k ∉ Bag.keys rest := by simpa [Bag.keys] using h
      have hhead : Bag.set ((k, v) :: bag) k' v' = (k, v) :: Bag.set bag k' v' := by
        simp [Bag.set, Json.store, hparts.1]
      rw [setAll_cons, hhead, ih hparts.2, setAll_cons]

/-- Members that are set in a bag with the first ones of their keys are all there is afterwards. -/
theorem setAll_of_prefix {bag news : Bag} (hkeys : bag.keys <+: news.keys) (hnodup : news.keys.Nodup) :
    Grid.setAll bag news = news := by
  induction bag generalizing news with
  | nil => exact setAll_nil hnodup
  | cons m rest ih =>
      cases news with
      | nil => exact absurd (List.prefix_nil.mp hkeys) (by simp [Bag.keys])
      | cons n news =>
          obtain ⟨k, v⟩ := m
          obtain ⟨k', v'⟩ := n
          obtain ⟨rfl, hrest⟩ := List.cons_prefix_cons.mp hkeys
          obtain ⟨hfirst, hnodup'⟩ := List.nodup_cons.mp hnodup
          have hset : Bag.set ((k, v) :: rest) k v' = (k, v') :: rest := by simp [Bag.set, Json.store]
          rw [setAll_cons, hset, setAll_cons_of_notMem hfirst, ih hrest hnodup']

namespace Grid

/-! ## Edges -/

section Edges

variable {d mode : Diagonal} {c : Contact} {e : Edge}

/-- The data that are read of an edge. -/
def rereadData (d mode : Diagonal) (c : Contact) (e : Edge) : Bag :=
  setAll (template mode c) (reread (edgeData c d e.data) e.style).1

theorem get?_rereadData (mode : Diagonal) (hnodup : (reread (edgeData c d e.data) e.style).1.keys.Nodup) {key : String}
    (hkey : key ≠ "style") :
    (rereadData d mode c e).get? key = ((edgeData c d e.data).get? key).or ((template mode c).get? key) := by
  rw [rereadData, get?_setAll _ hnodup, get?_reread _ _ hkey]

theorem isSome_of_front (h : Laid .diagonal e) {key : String} (hkey : key ∈ ["w", "forbidden"]) :
    (e.data.get? key).isSome = true :=
  Bag.isSome_get?_of_mem_keys ((h.front rfl).subset hkey)

theorem weightImplied_again (h : Laid c e) (hd : d.value.isNaN = false) (hvalue : mode.value = d.value)
    (hnodup : (reread (edgeData c d e.data) e.style).1.keys.Nodup) :
    weightImplied mode (rereadData d mode c e) c = weightImplied d e.data c := by
  have hget := get?_rereadData mode hnodup (by decide : "w" ≠ "style")
  rw [get?_edgeData_weight] at hget
  by_cases himplied : weightImplied d e.data c = true
  · rw [if_pos himplied, Option.none_or] at hget
    rw [himplied]
    cases c with
    | orthogonal =>
        have hnone : (rereadData d mode .orthogonal e).get? "w" = Bag.get? [] "w" := hget
        unfold weightImplied
        rw [weightOf_congr hnone]
        rfl
    | diagonal =>
        obtain ⟨w, hw, hequal⟩ := (Option.any_eq_true _ _).mp himplied
        have hinf : d.value.isInf = false := (Double.isInf_of_beq hequal).symm.trans (h.tidy.holds hw).isInf_toFloat
        rw [get?_template_weight ⟨hvalue ▸ hd, hvalue ▸ hinf⟩] at hget
        unfold weightImplied Bag.number?
        rw [hget]
        exact Double.beq_self (hvalue ▸ hd)
  · rw [if_neg himplied] at hget
    have hsame : (rereadData d mode c e).get? "w" = e.data.get? "w" := by
      rw [hget]
      cases c with
      | orthogonal => exact Option.or_none
      | diagonal =>
          obtain ⟨v, hv⟩ := Option.isSome_iff_exists.mp (isSome_of_front h (by decide : "w" ∈ _))
          rw [hv]
          rfl
    cases c with
    | orthogonal =>
        unfold weightImplied
        rw [weightOf_congr hsame]
    | diagonal =>
        unfold weightImplied Bag.number?
        rw [hsame, hvalue]

theorem forbids_congr (hvalue : mode.value = d.value) : forbids mode c = forbids d c := by
  unfold forbids
  rw [hvalue]

theorem forbiddenImplied_again (h : Laid c e) (hvalue : mode.value = d.value)
    (hnodup : (reread (edgeData c d e.data) e.style).1.keys.Nodup) :
    forbiddenImplied mode (rereadData d mode c e) c = forbiddenImplied d e.data c := by
  have hget := get?_rereadData mode hnodup (by decide : "forbidden" ≠ "style")
  rw [get?_edgeData_forbidden] at hget
  by_cases himplied : forbiddenImplied d e.data c = true
  · rw [if_pos himplied, Option.none_or] at hget
    rw [himplied]
    cases c with
    | orthogonal =>
        have hnone : (rereadData d mode .orthogonal e).get? "forbidden" = none := hget
        unfold forbiddenImplied
        rw [hnone]
        rfl
    | diagonal =>
        have hbool : (rereadData d mode .diagonal e).get? "forbidden" = some (.bool (forbids mode .diagonal)) := hget
        unfold forbiddenImplied
        rw [hbool]
        exact beq_self_eq_true _
  · rw [if_neg himplied] at hget
    have hsame : (rereadData d mode c e).get? "forbidden" = e.data.get? "forbidden" := by
      rw [hget]
      cases c with
      | orthogonal => exact Option.or_none
      | diagonal =>
          obtain ⟨v, hv⟩ := Option.isSome_iff_exists.mp (isSome_of_front h (by decide : "forbidden" ∈ _))
          rw [hv]
          rfl
    unfold forbiddenImplied
    rw [hsame, forbids_congr hvalue]

/-- **Of the data that are read of an edge, all that was read is written.** -/
theorem edgeData_again (h : Laid c e) (hd : d.value.isNaN = false) (hvalue : mode.value = d.value)
    (hnodup : (reread (edgeData c d e.data) e.style).1.keys.Nodup) :
    edgeData c mode (rereadData d mode c e) = (reread (edgeData c d e.data) e.style).1 := by
  rw [edgeData_eq, weightImplied_again h hd hvalue hnodup, forbiddenImplied_again h hvalue hnodup, rereadData,
    lasting_setAll]
  rw [edgeData_eq] at hnodup ⊢
  generalize impliedKeys (weightImplied d e.data c) (forbiddenImplied d e.data c) = skip at hnodup ⊢
  rw [lasting_reread]
  refine setAll_of_prefix ?_ hnodup
  cases c with
  | orthogonal => exact List.nil_prefix
  | diagonal =>
      have hunstyled := h.tidy.unstyled.lasting skip
      have hfront : Bag.keys (lasting (template mode .diagonal) skip) <+: Bag.keys (lasting e.data skip) := by
        rw [lasting_eq, lasting_eq, Bag.keys_filter _ (fun key => !isPassedOver skip key),
          Bag.keys_filter _ (fun key => !isPassedOver skip key)]
        exact (h.front rfl).filter _
      rw [reread_of_unstyled hunstyled]
      dsimp only
      split
      · exact hfront
      · rw [Bag.keys_filter _ (fun key => key != "style")]
        have hapart : (Bag.keys (lasting (template mode .diagonal) skip)).filter (fun key => key != "style") =
            Bag.keys (lasting (template mode .diagonal) skip) := by
          rw [List.filter_eq_self]
          intro key hkey
          have htemplate : key ∈ ["w", "forbidden"] := (List.filter_sublist.map Prod.fst).subset hkey
          clear hkey
          revert key
          decide
        rw [← hapart]
        exact hfront.filter _

end Edges

/-! ## Lines -/

/-- Two lists with holes of which as much is shown at each place. -/
theorem filterMap_eq_of_getElem? {α α' β : Type} {xs : List (Option α)} {ys : List (Option α')} {f : α → Option β}
    {f' : α' → Option β} (h : ∀ i : Nat, (xs[i]?.join).bind f = (ys[i]?.join).bind f') :
    (xs.filterMap id).filterMap f = (ys.filterMap id).filterMap f' := by
  rw [List.filterMap_filterMap, List.filterMap_filterMap]
  induction xs generalizing ys with
  | nil =>
      rw [List.filterMap_nil, eq_comm, List.filterMap_eq_nil_iff]
      intro y hy
      obtain ⟨i, hi⟩ := List.mem_iff_getElem?.mp hy
      have hnone := h i
      rw [hi] at hnone
      exact hnone.symm
  | cons x xs ih =>
      cases ys with
      | nil =>
          rw [List.filterMap_nil, List.filterMap_eq_nil_iff]
          intro z hz
          obtain ⟨i, hi⟩ := List.mem_iff_getElem?.mp hz
          have hnone := h i
          rw [hi] at hnone
          exact hnone
      | cons y ys =>
          have hfirst : (id x).bind f = (id y).bind f' := h 0
          rw [List.filterMap_cons, List.filterMap_cons, hfirst, ih fun i => h (i + 1)]

/-- What is written for a cost of diagonals is a matter of the cost. -/
theorem display_congr {d mode : Diagonal} (h : mode.value = d.value) : mode.display = d.display := by
  unfold Diagonal.display Diagonal.name?
  rw [h]

/-- The line of an edge by its parts. -/
theorem edgeLine?_eq {g : Graph} {e : Edge} {m n : Node} {c : Contact} (d : Diagonal) (hm : g.node? e.source = some m)
    (hn : g.node? e.target = some n) (hc : g.contact? e.source e.target = some c) :
    edgeLine? g d e =
      if ((payload? (edgeData c d e.data) e.style).isNone && e.bidirectional) = true then none
      else some (joinLine (["EDGE", toString m.x, toString m.y, toString n.x, toString n.y] ++
        if e.bidirectional then ["-b"] else []) (payload? (edgeData c d e.data) e.style)) := by
  unfold edgeLine?
  simp only [hm, hn, hc]

/-- The line of an end by the place it is at. -/
theorem endLines_eq_places (g : Graph) (word : String) (slot : Option Nat) :
    Grid.endLines g word slot =
      (slot.bind g.placeOf?).toList.map fun p => joinLine [word, toString p.1, toString p.2] none := by
  rw [endLines_eq]
  cases slot with
  | none => rfl
  | some s =>
      unfold placeOf?
      cases hn : g.node? s with
      | none => simp [hn]
      | some n => simp [hn]

/-- A grid that was read, and what is read of its document. -/
structure Pair (width height : Nat) (d mode : Diagonal) (twin : Nat → Nat) (new g r : Graph) : Prop where
  origin : Lattice Laid ⟨width, height, .disabled⟩ new
  lattice : Lattice Laid ⟨width, height, d⟩ g
  number : d.value.isNaN = false
  tidy : ∀ {s n}, g.node? s = some n → Tidy n.data
  stays : Stays new g
  stays' : Stays new r
  read : ReadFrom g ⟨width, height, d⟩ mode twin r

namespace Pair

variable {width height : Nat} {d mode : Diagonal} {twin : Nat → Nat} {new g r : Graph}
  (h : Pair width height d mode twin new g r)

include h

theorem placeOf? (s : Nat) : r.placeOf? s = g.placeOf? s :=
  (h.stays'.places s).trans (h.stays.places s).symm

theorem twin_eq {s : Nat} (hs : g.Live s) : twin s = s := by
  obtain ⟨n, hn⟩ := live_iff.mp hs
  have hplace : g.placeOf? s = some (n.x, n.y) := placeOf?_of_node? hn
  exact h.read.lattice.wired.slot_eq_of_place (h.read.twins s _ hplace) ((h.placeOf? s).trans hplace)

/-- What was read for a node is in the same slot. -/
theorem node {s : Nat} {n : Node} (hn : g.node? s = some n) :
    ∃ m, r.node? s = some m ∧ m.x = n.x ∧ m.y = n.y ∧ cellEntry m = cellCopy n := by
  have hplace : g.placeOf? s = some (n.x, n.y) := placeOf?_of_node? hn
  have hplace' := (h.placeOf? s).trans hplace
  obtain ⟨m, hm, hxy⟩ := Option.map_eq_some_iff.mp hplace'
  obtain ⟨hx, hy⟩ := Prod.mk.inj hxy
  have hcell := h.read.cells n (mem_nodeList.mpr ⟨s, hn⟩)
  unfold RereadCell at hcell
  rw [h.read.lattice.nodeAt?_of_place hplace', hm] at hcell
  exact ⟨m, hm, hx, hy, Option.some.inj hcell⟩

/-- Nodes that touch are joined at one place in both grids. -/
theorem joinedAt {a b : Nat} {c : Contact} (hc : g.contact? a b = some c) : ∃ p, JoinedAt g p a b ∧ JoinedAt r p a b := by
  have hnew : new.contact? a b = some c := by
    rw [contact?_eq, ← h.stays.places, ← h.stays.places, ← contact?_eq, hc]
  obtain ⟨p, e, he, hjoins⟩ := h.origin.joined hnew
  exact ⟨p, h.stays.kept ⟨e, he, hjoins⟩, h.stays'.kept ⟨e, he, hjoins⟩⟩

/-- What was read for an edge is in the same place. -/
theorem edge {p : Nat} {e : Edge} (he : g.edgeAt? p = some e) :
    ∃ e' c, r.edgeAt? p = some e' ∧ g.contact? e.source e.target = some c ∧ Rereads d mode c twin e e' := by
  obtain ⟨q, e', c, he', hc, hrereads⟩ := h.read.edges e (mem_edgeList.mpr ⟨p, he⟩)
  obtain ⟨p', ⟨e₁, he₁, hjoins₁⟩, e₂, he₂, hjoins₂⟩ := h.joinedAt hc
  obtain ⟨hsource, htarget⟩ := h.lattice.wired.arena.ends he
  have hjoins := hrereads.joins
  rw [h.twin_eq hsource, h.twin_eq htarget] at hjoins
  obtain rfl := h.lattice.wired.place_eq_of_joins he he₁ e.joins_self hjoins₁
  obtain rfl := h.read.lattice.wired.place_eq_of_joins he₂ he' hjoins₂ hjoins
  exact ⟨e', c, he', hc, hrereads⟩

/-- There is no edge where there was none. -/
theorem edge_eq_none {p : Nat} (he : g.edgeAt? p = none) : r.edgeAt? p = none := by
  cases he' : r.edgeAt? p with
  | none => rfl
  | some e' =>
      obtain ⟨c, hc, -⟩ := h.read.lattice.wired.fits he'
      rw [contact?_eq, h.placeOf?, h.placeOf?, ← contact?_eq] at hc
      obtain ⟨q, ⟨e₁, he₁, -⟩, e₂, he₂, hjoins⟩ := h.joinedAt hc
      obtain rfl := h.read.lattice.wired.single he' he₂ hjoins
      rw [he] at he₁
      cases he₁

/-! ### The lines of the second document -/

/-- A node lets one pass as before. -/
theorem isOpenAt (x y : Nat) : isOpenAt r x y = isOpenAt g x y := by
  unfold Grid.isOpenAt
  cases hfound : g.nodeAt? x y with
  | some n =>
      obtain ⟨hn, rfl, rfl⟩ := h.lattice.mem_of_nodeAt? hfound
      have hcell := h.read.cells n hn
      obtain ⟨m, hm, hentry⟩ := Option.map_eq_some_iff.mp hcell
      rw [hm]
      exact congrArg Prod.fst hentry
  | none =>
      have houtside : ¬ (r.nodeAt? x y).isSome = true := by
        rw [h.read.lattice.nodeAt?_isSome, ← h.lattice.nodeAt?_isSome, hfound]
        exact Bool.false_ne_true
      rw [Option.not_isSome_iff_eq_none.mp houtside]

theorem nodeLines (hlast : ∀ n ∈ g.nodeList, StyleLast (lasting n.data ["traversable"]) n.style) :
    r.nodeList.filterMap nodeLine? = g.nodeList.filterMap nodeLine? := by
  refine filterMap_eq_of_getElem? fun s => ?_
  have hnodes : ∀ t : Graph, (t.nodes.toList[s]?).join = t.node? s := fun t => by
    rw [Array.getElem?_toList]
    rfl
  rw [hnodes, hnodes]
  cases hn : g.node? s with
  | none =>
      have hplace : g.placeOf? s = none := by rw [Graph.placeOf?, hn, Option.map_none]
      rw [← h.placeOf?] at hplace
      rw [Option.map_eq_none_iff.mp hplace]
  | some n =>
      obtain ⟨m, hm, hx, hy, hentry⟩ := h.node hn
      obtain ⟨-, hdata⟩ := Prod.mk.inj hentry
      obtain ⟨hdata, hstyle⟩ := Prod.mk.inj hdata
      have hpayload : payload? (lasting m.data ["traversable"]) m.style =
          payload? (lasting n.data ["traversable"]) n.style := by
        rw [hdata, hstyle]
        exact payload?_reread ((h.tidy hn).unstyled.lasting _) (hlast n (mem_nodeList.mpr ⟨s, hn⟩))
      rw [hm, Option.bind_some, Option.bind_some, nodeLine?, nodeLine?, hpayload, hx, hy]

/-- What was read for an edge has the line that the edge has. -/
theorem edgeLine? {p : Nat} {e e' : Edge} {c : Contact} (he : g.edgeAt? p = some e)
    (hc : g.contact? e.source e.target = some c) (hrereads : Rereads d mode c twin e e')
    (hback : (withStyle (edgeData c d e.data) e.style).ReadsBack) (hlast : StyleLast (edgeData c d e.data) e.style) :
    edgeLine? r mode e' = edgeLine? g d e := by
  obtain ⟨c', hc', hlaid⟩ := h.lattice.wired.fits he
  obtain rfl : c' = c := Option.some.inj (hc'.symm.trans hc)
  obtain ⟨hsource, htarget⟩ := h.lattice.wired.arena.ends he
  obtain ⟨m, hm⟩ := live_iff.mp hsource
  obtain ⟨n, hn⟩ := live_iff.mp htarget
  obtain ⟨m', hm', hx, hy, -⟩ := h.node hm
  obtain ⟨n', hn', hx', hy', -⟩ := h.node hn
  obtain ⟨hnodup, hnodup'⟩ := nodup_keys_reread_of_readsBack hback
  have hunstyled : Unstyled (edgeData c' d e.data) := by
    rw [edgeData_eq]
    exact hlaid.tidy.unstyled.lasting _
  have hstyle : e'.style = (reread (edgeData c' d e.data) e.style).2 := hrereads.style.trans (setAll_nil hnodup')
  have hdata : edgeData c' mode e'.data = (reread (edgeData c' d e.data) e.style).1 := by
    rw [hrereads.data]
    exact edgeData_again hlaid h.number h.read.value hnodup
  have hpayload : payload? (edgeData c' mode e'.data) e'.style = payload? (edgeData c' d e.data) e.style := by
    rw [hdata, hstyle]
    exact payload?_reread hunstyled hlast
  have hplaces : ∀ {a b}, r.contact? a b = g.contact? a b := fun {a b} => by
    rw [contact?_eq, h.placeOf?, h.placeOf?, ← contact?_eq]
  have hjoins := hrereads.joins
  have haligned := hrereads.aligned
  rw [h.twin_eq hsource] at hjoins haligned
  rw [h.twin_eq htarget] at hjoins
  -- Either the edge leaves the same cell, or there is nothing to write of it in either direction.
  rcases hjoins with ⟨hs, ht⟩ | ⟨hs, ht⟩
  · rw [edgeLine?_eq d hm hn hc, edgeLine?_eq (g := r) mode (hs ▸ hm') (ht ▸ hn') (by rw [hs, ht, hplaces, hc]),
      hpayload, hrereads.flag, hx, hy, hx', hy']
  · obtain ⟨hnothing, hplain, hflag⟩ := haligned.resolve_left fun hsame =>
      ne_of_contact? hc (hsame.symm.trans hs)
    have hnone : payload? (edgeData c' d e.data) e.style = none := by
      rw [hnothing, hplain]
      rfl
    have hturned : r.contact? e'.source e'.target = some c' := by rw [hs, ht, hplaces, contact?_comm, hc]
    have hunwritten : ∀ {payload : Option String} {bidirectional : Bool} {line : String}, payload = none →
        bidirectional = true →
        (if (payload.isNone && bidirectional) = true then none else some line) = (none : Option String) := by
      intro payload bidirectional line hpayload hbidirectional
      rw [hpayload, hbidirectional]
      exact if_pos rfl
    have hold := (edgeLine?_eq d hm hn hc).trans (hunwritten hnone hflag)
    have hnew := (edgeLine?_eq mode (hs ▸ hn') (ht ▸ hm') hturned).trans
      (hunwritten (hpayload.trans hnone) (hrereads.flag.trans hflag))
    exact hnew.trans hold.symm

theorem edgeLines
    (hback : ∀ e ∈ g.edgeList, ∀ c, g.contact? e.source e.target = some c →
      (withStyle (edgeData c d e.data) e.style).ReadsBack)
    (hlast : ∀ e ∈ g.edgeList, ∀ c, g.contact? e.source e.target = some c → StyleLast (edgeData c d e.data) e.style) :
    r.edgeList.filterMap (Grid.edgeLine? r mode) = g.edgeList.filterMap (Grid.edgeLine? g d) := by
  refine filterMap_eq_of_getElem? fun p => ?_
  have hedges : ∀ t : Graph, (t.edges.toList[p]?).join = t.edgeAt? p := fun t => by
    rw [Array.getElem?_toList]
    rfl
  rw [hedges, hedges]
  cases he : g.edgeAt? p with
  | none =>
      rw [h.edge_eq_none he, Option.bind_none, Option.bind_none]
  | some e =>
      obtain ⟨e', c, he', hc, hrereads⟩ := h.edge he
      have hmem := mem_edgeList.mpr ⟨p, he⟩
      rw [he', Option.bind_some, Option.bind_some, h.edgeLine? he hc hrereads (hback e hmem c hc) (hlast e hmem c hc)]

/-- **A grid is written again** as it was written before. -/
theorem write_eq
    (hbackEdges : ∀ e ∈ g.edgeList, ∀ c, g.contact? e.source e.target = some c →
      (withStyle (edgeData c d e.data) e.style).ReadsBack)
    (hlastNodes : ∀ n ∈ g.nodeList, StyleLast (lasting n.data ["traversable"]) n.style)
    (hlastEdges : ∀ e ∈ g.edgeList, ∀ c, g.contact? e.source e.target = some c →
      StyleLast (edgeData c d e.data) e.style) : write r = write g := by
  have hplaces : ∀ slot : Option Nat, slot.bind r.placeOf? = slot.bind g.placeOf? := fun slot => by
    rw [funext h.placeOf?]
  have hrows : (List.range height).map (rowLine r width) = (List.range height).map (rowLine g width) := by
    apply List.map_congr_left
    intro y hy
    have hy : y < height := List.mem_range.mp hy
    have hopen : (fun x => Grid.isOpenAt r x y) = fun x => Grid.isOpenAt g x y := funext fun x => h.isOpenAt x y
    have hline := rowLine_eq h.read.lattice (y := y) hy
    rw [hopen] at hline
    exact hline.trans (rowLine_eq h.lattice (y := y) hy).symm
  rw [Grid.write_eq h.lattice.grid, Grid.write_eq h.read.lattice.grid]
  dsimp only
  rw [hrows]
  unfold statementLines
  dsimp only
  rw [display_congr h.read.value, endLines_eq_places, endLines_eq_places, h.read.start, h.read.goal,
    h.nodeLines hlastNodes, h.edgeLines hbackEdges hlastEdges, endLines_eq_places, endLines_eq_places]

end Pair

end Grid

/-! ## Free-form documents -/

namespace FreeForm

/-- What is read of tidy data is written as before. -/
theorem payload?_again {data style : Bag} (htidy : Tidy data) (hlast : StyleLast (lasting data) style) :
    payload? (lasting (reread (lasting data) style).1) (reread (lasting data) style).2 =
      payload? (lasting data) style := by
  rw [lasting_reread, payload?_reread (htidy.unstyled.lasting []) hlast]

/-- What a document says of a graph decides what is written of it. -/
theorem write_eq_of_content {g r : Graph}
    (hcontent : content id r =
      ⟨g.nodeList.map nodeCopy, g.edgeList.map (edgeCopy g), g.start.bind g.idOf?, g.goal.bind g.idOf?⟩)
    (hnodes : ∀ n ∈ g.nodeList, Tidy n.data ∧ StyleLast (lasting n.data) n.style)
    (hedges : ∀ e ∈ g.edgeList, Tidy e.data ∧ StyleLast (lasting e.data) e.style) : write r = write g := by
  obtain ⟨hcopies, hcopies', hstart, hgoal⟩ := Content.mk.inj hcontent
  have hnodeLines : r.nodeList.map nodeLine = g.nodeList.map nodeLine := by
    have hlines := congrArg (List.map fun entry : String × Bag × Bag =>
      joinLine ["NODE", Argument.write entry.1] (payload? (lasting entry.2.1) entry.2.2)) hcopies
    rw [List.map_map, List.map_map] at hlines
    refine hlines.trans (List.map_congr_left fun n hn => ?_)
    have hpayload := payload?_again (hnodes n hn).1 (hnodes n hn).2
    exact congrArg (joinLine ["NODE", Argument.write n.id]) hpayload
  have hedgeLines : r.edgeList.map (edgeLine r) = g.edgeList.map (edgeLine g) := by
    have hlines := congrArg (List.map fun entry : Option String × Option String × Bool × Bag × Bag =>
      joinLine (["EDGE", (entry.1.map Argument.write).getD "", (entry.2.1.map Argument.write).getD ""] ++
        if entry.2.2.1 then ["-b"] else []) (payload? (lasting entry.2.2.2.1) entry.2.2.2.2)) hcopies'
    rw [List.map_map, List.map_map] at hlines
    refine hlines.trans (List.map_congr_left fun e he => ?_)
    have hpayload := payload?_again (hedges e he).1 (hedges e he).2
    exact congrArg (joinLine (["EDGE", writeId g e.source, writeId g e.target] ++
      if e.bidirectional then ["-b"] else [])) hpayload
  rw [write_eq, write_eq, hnodeLines, hedgeLines]
  unfold endLines
  rw [hstart, hgoal]

end FreeForm

/-! ## Any document -/

/-- The data and styles that are written of a graph. -/
def written (g : Graph) : List (Bag × Bag) :=
  match g.grid with
  | none =>
    g.nodeList.map (fun n => (lasting n.data, n.style)) ++ g.edgeList.map fun e => (lasting e.data, e.style)
  | some spec =>
    g.nodeList.map (fun n => (lasting n.data ["traversable"], n.style)) ++
      g.edgeList.filterMap fun e =>
        (g.contact? e.source e.target).map fun c => (Grid.edgeData c spec.diagonal e.data, e.style)

/-- Nothing that is written of a graph has its style in the place of a member in front of others. -/
def StylesLast (g : Graph) : Prop := ∀ p ∈ written g, StyleLast p.1 p.2

section Whole

variable {g : Graph} (hback : ∀ p ∈ written g, (withStyle p.1 p.2).ReadsBack)

include hback

/-- A free-form graph that was read is read from its document, and written again. -/
theorem FreeForm.again (h : Accepted g) :
    ∃ r, Notation.read (Notation.write g) = .ok r ∧ (StylesLast g → Notation.write r = Notation.write g) := by
  have hfree : g.isGrid = false := h.mutated.isGrid
  have hgrid : g.grid = none := by simpa [isGrid] using hfree
  have hnodes : ∀ n ∈ g.nodeList, (lasting n.data, n.style) ∈ written g := fun n hn => by
    unfold written
    rw [hgrid]
    exact List.mem_append_left _ (List.mem_map_of_mem hn)
  have hedges : ∀ e ∈ g.edgeList, (lasting e.data, e.style) ∈ written g := fun e he => by
    unfold written
    rw [hgrid]
    exact List.mem_append_right _ (List.mem_map_of_mem he)
  have hlegible : ∀ n ∈ g.nodeList, Legible n.data n.style := fun n hn =>
    hback (lasting n.data, n.style) (hnodes n hn)
  have hlegible' : ∀ e ∈ g.edgeList, Legible e.data e.style := fun e he =>
    hback (lasting e.data, e.style) (hedges e he)
  obtain ⟨r, hread, hfree', hcontent⟩ := read_of_arena h.mutated.arena hfree hlegible hlegible'
  refine ⟨r, hread, fun hlast => ?_⟩
  rw [Notation.write, Notation.write, hfree, hfree', if_neg Bool.false_ne_true, if_neg Bool.false_ne_true]
  refine write_eq_of_content hcontent (fun n hn => ?_) fun e he => ?_
  · obtain ⟨s, hs⟩ := mem_nodeList.mp hn
    exact ⟨h.nodes hs, hlast (lasting n.data, n.style) (hnodes n hn)⟩
  · obtain ⟨p, hp⟩ := mem_edgeList.mp he
    exact ⟨h.edges hp, hlast (lasting e.data, e.style) (hedges e he)⟩

/-- A grid that was read is read from its document, and written again, as long as the cost of diagonals is. -/
theorem Grid.again {width height : Nat} {new : Graph} (hsizes : IsSize width ∧ IsSize height)
    (hnew : ofGrid width height .disabled = .ok new) (horigin : Lattice Laid ⟨width, height, .disabled⟩ new)
    (h : Standing width height new g) (hd : ∀ spec, g.grid = some spec → Spelt spec.diagonal) :
    ∃ r, Notation.read (Notation.write g) = .ok r ∧ (StylesLast g → Notation.write r = Notation.write g) := by
  obtain ⟨d, hlattice, hnumber⟩ := h.lattice
  have hgrid := hlattice.grid
  have hnodes : ∀ n ∈ g.nodeList, (lasting n.data ["traversable"], n.style) ∈ written g := fun n hn => by
    unfold written
    rw [hgrid]
    exact List.mem_append_left _ (List.mem_map_of_mem hn)
  have hedges : ∀ e ∈ g.edgeList, ∀ c, g.contact? e.source e.target = some c →
      (edgeData c d e.data, e.style) ∈ written g := fun e he c hc => by
    unfold written
    rw [hgrid]
    exact List.mem_append_right _ (List.mem_filterMap.mpr ⟨e, he, by rw [hc]; rfl⟩)
  have hback' : ∀ e ∈ g.edgeList, ∀ c, g.contact? e.source e.target = some c →
      (withStyle (edgeData c d e.data) e.style).ReadsBack := fun e he c hc =>
    hback (edgeData c d e.data, e.style) (hedges e he c hc)
  obtain ⟨r, mode, twin, hread, hfrom⟩ := read_of_lattice hlattice ⟨hsizes.1, hsizes.2⟩ (hd _ hgrid)
    (fun n hn => hback (lasting n.data ["traversable"], n.style) (hnodes n hn)) hback'
  -- What is read of the document is a grid that was read, so it comes of the same new grid.
  have hstays : Stays new r := by
    rcases accepted_or_standing hread with haccepted | ⟨width', height', new', -, hnew', -, hstanding⟩
    · have hfree : r.isGrid = false := haccepted.mutated.isGrid
      rw [isGrid, hfrom.lattice.grid] at hfree
      cases hfree
    · obtain ⟨d', hlattice', -⟩ := hstanding.lattice
      have hspec := hlattice'.grid
      rw [hfrom.lattice.grid] at hspec
      obtain ⟨rfl, rfl, -⟩ := GridSpec.mk.inj (Option.some.inj hspec)
      rw [hnew] at hnew'
      exact Except.ok.inj hnew' ▸ hstanding.stays
  have hpair : Pair width height d mode twin new g r :=
    ⟨horigin, hlattice, hnumber, h.nodes, h.stays, hstays, hfrom⟩
  refine ⟨r, hread, fun hlast => ?_⟩
  have hwrite : ∀ {t : Graph} {spec : GridSpec}, t.grid = some spec → Notation.write t = Grid.write t :=
    fun ht => by simp [Notation.write, isGrid, ht]
  rw [hwrite hgrid, hwrite hfrom.lattice.grid]
  exact hpair.write_eq hback' (fun n hn => hlast (lasting n.data ["traversable"], n.style) (hnodes n hn))
    fun e he c hc => hlast (edgeData c d e.data, e.style) (hedges e he c hc)

end Whole

/-- **What was read is read from its document, and written again.** The data that are written must read back, and the
cost of diagonals as well. -/
theorem write_again {text : String} {g : Graph} (hread : read text = .ok g)
    (hback : ∀ p ∈ written g, (withStyle p.1 p.2).ReadsBack)
    (hd : ∀ spec, g.grid = some spec → Grid.Spelt spec.diagonal) :
    ∃ r, read (write g) = .ok r ∧ (StylesLast g → write r = write g) := by
  rcases accepted_or_standing hread with haccepted | ⟨width, height, new, hsizes, hnew, horigin, hstanding⟩
  · exact FreeForm.again hback haccepted
  · exact Grid.again hback hsizes hnew horigin hstanding hd

/-- A grid that was read is a lattice, and diagonals cost a number. -/
theorem lattice_of_read {text : String} {g : Graph} (hread : read text = .ok g) {spec : GridSpec}
    (hspec : g.grid = some spec) : Lattice Grid.Laid spec g ∧ Sized spec ∧ spec.diagonal.value.isNaN = false := by
  rcases accepted_or_standing hread with haccepted | ⟨width, height, new, hsizes, -, -, hstanding⟩
  · have hfree : g.isGrid = false := haccepted.mutated.isGrid
    rw [isGrid, hspec] at hfree
    cases hfree
  · obtain ⟨d, hlattice, hnumber⟩ := hstanding.lattice
    obtain rfl := Option.some.inj (hspec.symm.trans hlattice.grid)
    exact ⟨hlattice, ⟨hsizes.1, hsizes.2⟩, hnumber⟩

end Notation

end SearchLab
