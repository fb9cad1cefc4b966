import SearchLab.Proofs.Bag
import SearchLab.Proofs.Graph.Index

/-!
# The edges of a lattice

A grid is `Wired` when its nodes bear the ids of their cells and its edges join cells that touch, no two of them the
same ones. What else holds of the edges, their flags and data, is left open: `Fit` says what an edge between two cells
may be like. On a wired grid an edge between two cells that touch is looked up as the only one, and completing the
edges adds just those that are missing.

* `mem_neighbours` — the cells around a cell are those that touch it;
* `Wired.between_of_joins` — the only edge between two cells;
* `Filled.completeAllEdges` — afterwards all cells that touch are joined, across corners at the cost of diagonals.
-/

namespace SearchLab

/-- An edge joins two nodes, whichever of them it starts at. -/
def Edge.Joins (e : Edge) (a b : Nat) : Prop := (e.source = a ∧ e.target = b) ∨ (e.source = b ∧ e.target = a)

theorem Edge.Joins.comm {e : Edge} {a b : Nat} (h : e.Joins a b) : e.Joins b a := Or.symm h

theorem Edge.joins_self (e : Edge) : e.Joins e.source e.target := .inl ⟨rfl, rfl⟩

/-- An edge joins the two nodes between which it is seen. -/
theorem EdgeView.joins (v : EdgeView) : v.edge.Joins v.source v.target := by
  obtain ⟨e, reversed⟩ := v
  cases reversed
  · exact .inl ⟨rfl, rfl⟩
  · exact .inr ⟨rfl, rfl⟩

namespace Graph

/-! ## Cells -/

theorem toList_cellId (x y : Nat) : (cellId x y).toList = Nat.toDigits 10 x ++ '_' :: Nat.toDigits 10 y := by
  simp [cellId]
  rfl

/-- Numbers are told apart by their digits. -/
theorem toDigits_injective {m n : Nat} (h : Nat.toDigits 10 m = Nat.toDigits 10 n) : m = n := by
  rw [← Nat.ofDigitChars_ten_toDigits (n := m), h, Nat.ofDigitChars_ten_toDigits]

/-- No two cells have the same id. -/
theorem cellId_injective {x y x' y' : Nat} (h : cellId x y = cellId x' y') : x = x' ∧ y = y' := by
  have hchars := congrArg String.toList h
  rw [toList_cellId, toList_cellId] at hchars
  have hcut : ∀ m n : Nat, (Nat.toDigits 10 m ++ '_' :: Nat.toDigits 10 n).takeWhile (· != '_') = Nat.toDigits 10 m ∧
      (Nat.toDigits 10 m ++ '_' :: Nat.toDigits 10 n).dropWhile (· != '_') = '_' :: Nat.toDigits 10 n := by
    intro m n
    have hdigits : ∀ c ∈ Nat.toDigits 10 m, (c != '_') = true := by
      intro c hc
      have hne : c ≠ '_' := by
        rintro rfl
        exact Nat.underscore_not_in_toDigits hc
      simpa using hne
    rw [List.takeWhile_append_of_pos hdigits, List.dropWhile_append_of_pos hdigits]
    simp
  have htake := congrArg (List.takeWhile (· != '_')) hchars
  have hdrop := congrArg (List.dropWhile (· != '_')) hchars
  rw [(hcut x y).1, (hcut x' y').1] at htake
  rw [(hcut x y).2, (hcut x' y').2] at hdrop
  exact ⟨toDigits_injective htake, toDigits_injective (List.cons.inj hdrop).2⟩

/-- How two places touch, if they do. -/
def touch? (p q : Nat × Nat) : Option Contact :=
  match apart p.1 q.1, apart p.2 q.2 with
  | 1, 0 => some .orthogonal
  | 0, 1 => some .orthogonal
  | 1, 1 => some .diagonal
  | _, _ => none

/-- The place of the cell in a slot. -/
def placeOf? (g : Graph) (slot : Nat) : Option (Nat × Nat) := (g.node? slot).map fun n => (n.x, n.y)

theorem placeOf?_of_node? {g : Graph} {s : Nat} {n : Node} (hn : g.node? s = some n) : g.placeOf? s = some (n.x, n.y) := by
  rw [placeOf?, hn, Option.map_some]

/-- How two nodes touch is a matter of their places. -/
theorem contact?_eq (g : Graph) (a b : Nat) :
    g.contact? a b = (g.placeOf? a).bind fun p => (g.placeOf? b).bind fun q => touch? p q := by
  unfold contact? placeOf?
  cases g.node? a with
  | none => rfl
  | some m => cases g.node? b <;> rfl

theorem apart_comm (m n : Nat) : apart m n = apart n m := by
  unfold apart
  omega

theorem touch?_comm (p q : Nat × Nat) : touch? p q = touch? q p := by
  rw [touch?, touch?, apart_comm p.1, apart_comm p.2]

theorem touch?_self (p : Nat × Nat) : touch? p p = none := by
  simp [touch?, apart]

theorem contact?_comm (g : Graph) (a b : Nat) : g.contact? a b = g.contact? b a := by
  rw [contact?_eq, contact?_eq]
  cases g.placeOf? a <;> cases g.placeOf? b <;> simp [touch?_comm]

/-- No node touches itself. -/
theorem ne_of_contact? {g : Graph} {a b : Nat} {c : Contact} (h : g.contact? a b = some c) : a ≠ b := by
  rintro rfl
  rw [contact?_eq] at h
  cases hplace : g.placeOf? a <;> simp [hplace, touch?_self] at h

theorem contact?_of_places {g : Graph} {a b : Nat} {p q : Nat × Nat} (ha : g.placeOf? a = some p)
    (hb : g.placeOf? b = some q) : g.contact? a b = touch? p q := by
  rw [contact?_eq, ha, hb]
  rfl

theorem touch?_eq_orthogonal {p q : Nat × Nat} :
    touch? p q = some .orthogonal ↔
      (apart p.1 q.1 = 1 ∧ apart p.2 q.2 = 0) ∨ (apart p.1 q.1 = 0 ∧ apart p.2 q.2 = 1) := by
  unfold touch?
  split <;> simp_all

theorem touch?_eq_diagonal {p q : Nat × Nat} :
    touch? p q = some .diagonal ↔ apart p.1 q.1 = 1 ∧ apart p.2 q.2 = 1 := by
  unfold touch?
  split <;> simp_all

/-- The offsets lead one step on in each direction. -/
theorem mem_offsets {dx dy : Int} :
    (dx, dy) ∈ offsets ↔ (-1 ≤ dx ∧ dx ≤ 1) ∧ (-1 ≤ dy ∧ dy ≤ 1) ∧ ¬ (dx = 0 ∧ dy = 0) := by
  simp only [offsets, List.mem_cons, List.not_mem_nil, Prod.mk.injEq, or_false]
  omega

/-- Two cells touch where an offset leads from one to the other, at a corner where it leads on in both directions. -/
theorem touch?_eq_some_iff {x y u v : Nat} {c : Contact} :
    touch? (x, y) (u, v) = some c ↔ ((u : Int) - x, (v : Int) - y) ∈ offsets ∧
      (c = .diagonal ↔ (u : Int) - x ≠ 0 ∧ (v : Int) - y ≠ 0) := by
  rw [mem_offsets]
  cases c with
  | orthogonal =>
      rw [touch?_eq_orthogonal]
      unfold apart
      simp only [reduceCtorEq, false_iff]
      omega
  | diagonal =>
      rw [touch?_eq_diagonal]
      unfold apart
      simp only [true_iff]
      omega

/-- The cells around a cell are those within the bounds that touch it. -/
theorem mem_neighbours {width height x y : Nat} {q : Neighbour} :
    q ∈ neighbours width height x y ↔
      (∃ c, touch? (x, y) (q.x, q.y) = some c ∧ q.isDiagonal = decide (c = .diagonal)) ∧ q.x < width ∧ q.y < height := by
  obtain ⟨u, v, isDiagonal⟩ := q
  constructor
  · intro hq
    obtain ⟨⟨dx, dy⟩, hoffset, hq⟩ := List.mem_filterMap.mp hq
    dsimp only at hq
    split at hq
    · exact absurd hq (by simp)
    · rename_i hinside
      simp only [Bool.or_eq_true, decide_eq_true_eq] at hinside
      obtain ⟨rfl, rfl, rfl⟩ := Neighbour.mk.inj (Option.some.inj hq)
      have hx : (((x : Int) + dx).toNat : Int) - x = dx := by omega
      have hy : (((y : Int) + dy).toNat : Int) - y = dy := by omega
      dsimp only
      refine ⟨⟨if dx ≠ 0 ∧ dy ≠ 0 then .diagonal else .orthogonal, touch?_eq_some_iff.mpr ?_, ?_⟩, by omega, by omega⟩
      · rw [hx, hy]
        exact ⟨hoffset, by simp⟩
      · rw [Bool.eq_iff_iff]
        simp
  · rintro ⟨⟨c, htouch, hdiagonal⟩, hu, hv⟩
    dsimp only at htouch hdiagonal hu hv
    obtain ⟨hoffset, hcorner⟩ := touch?_eq_some_iff.mp htouch
    refine List.mem_filterMap.mpr ⟨((u : Int) - x, (v : Int) - y), hoffset, ?_⟩
    have hinside : ¬ ((decide ((x : Int) + (u - x) < 0) || decide ((y : Int) + (v - y) < 0) ||
        decide ((width : Int) ≤ x + (u - x)) || decide ((height : Int) ≤ y + (v - y))) = true) := by
      simp only [Bool.or_eq_true, decide_eq_true_eq]
      omega
    have hx : ((x : Int) + (u - x)).toNat = u := by omega
    have hy : ((y : Int) + (v - y)).toNat = v := by omega
    have hboth : (((u : Int) - x != 0) && ((v : Int) - y != 0)) = isDiagonal := by
      rw [hdiagonal, Bool.eq_iff_iff, decide_eq_true_iff, hcorner]
      simp only [Bool.and_eq_true, bne_iff_ne]
    dsimp only
    rw [if_neg hinside, hx, hy, hboth]

/-! ## Nodes as cells -/

/-- The nodes of a graph bear the ids of their places. Nothing is asked of its edges. -/
structure Placed (g : Graph) : Prop where
  arena : g.Arena
  named : ∀ {s n}, g.node? s = some n → n.id = cellId n.x n.y

namespace Placed

variable {g : Graph}

/-- The id of a cell leads to the node in its place. -/
theorem slot?_cellId (h : g.Placed) {x y s : Nat} : g.slot? (cellId x y) = some s ↔ g.placeOf? s = some (x, y) := by
  rw [h.arena.lookup, placeOf?, Option.map_eq_some_iff]
  constructor
  · rintro ⟨n, hn, hid⟩
    obtain ⟨rfl, rfl⟩ := cellId_injective ((h.named hn).symm.trans hid)
    exact ⟨n, hn, rfl⟩
  · rintro ⟨n, hn, hplace⟩
    obtain ⟨rfl, rfl⟩ := Prod.mk.inj hplace
    exact ⟨n, hn, h.named hn⟩

/-- Another size leaves the nodes where they are. -/
theorem withGrid (h : g.Placed) (grid : Option GridSpec) : Placed { g with grid } where
  arena := ⟨h.arena.slot, h.arena.lookup, h.arena.number, h.arena.ends, h.arena.start, h.arena.goal⟩
  named := h.named

theorem dropNode (h : g.Placed) (slot : Nat) : (g.dropNode slot).Placed where
  arena := h.arena.dropNode slot
  named hn := by
    rw [node?_dropNode] at hn
    split at hn
    · cases hn
    · exact h.named hn

theorem dropNodes (h : g.Placed) (slots : List Nat) : (slots.foldl Graph.dropNode g).Placed := by
  induction slots generalizing g with
  | nil => exact h
  | cons slot rest ih => exact ih (h.dropNode slot)

end Placed

/-- Of some nodes that are dropped the others are left. -/
theorem node?_dropNodes (g : Graph) (slots : List Nat) (s : Nat) :
    (slots.foldl Graph.dropNode g).node? s = if s ∈ slots then none else g.node? s := by
  induction slots generalizing g with
  | nil => simp
  | cons slot rest ih =>
      rw [List.foldl_cons, ih, node?_dropNode]
      by_cases hrest : s ∈ rest
      · simp [hrest]
      · by_cases hslot : slot = s
        · simp [hslot]
        · simp [hrest, hslot, Ne.symm hslot]

/-- The nodes of a grid of a size are just the cells within its bounds. -/
structure Tiled (spec : GridSpec) (g : Graph) : Prop extends Placed g where
  grid : g.grid = some spec
  inside : ∀ {s x y}, g.placeOf? s = some (x, y) → x < spec.width ∧ y < spec.height
  filled : ∀ {x y}, x < spec.width → y < spec.height → ∃ s, g.slot? (cellId x y) = some s

/-! ## Edges between cells -/

/-- The nodes are cells, and each edge joins two that touch, which no other edge joins, as `Fit` has it. -/
structure Wired (Fit : Contact → Edge → Prop) (g : Graph) : Prop where
  arena : g.Arena
  indexed : g.Indexed
  named : ∀ {s n}, g.node? s = some n → n.id = cellId n.x n.y
  fits : ∀ {p e}, g.edgeAt? p = some e → ∃ c, g.contact? e.source e.target = some c ∧ Fit c e
  single : ∀ {p p' e e'}, g.edgeAt? p = some e → g.edgeAt? p' = some e' → e'.Joins e.source e.target → p = p'

/-- Two graphs have the same cells and the same ends. -/
structure SameCells (g g' : Graph) : Prop where
  grid : g'.grid = g.grid
  nodes : g'.nodes = g.nodes
  slots : g'.slots = g.slots
  start : g'.start = g.start
  goal : g'.goal = g.goal

namespace SameCells

variable {g g' g'' : Graph}

theorem refl (g : Graph) : SameCells g g := ⟨rfl, rfl, rfl, rfl, rfl⟩

theorem trans (h : SameCells g g') (h' : SameCells g' g'') : SameCells g g'' where
  grid := h'.grid.trans h.grid
  nodes := h'.nodes.trans h.nodes
  slots := h'.slots.trans h.slots
  start := h'.start.trans h.start
  goal := h'.goal.trans h.goal

theorem node? (h : SameCells g g') (s : Nat) : g'.node? s = g.node? s := by
  rw [Graph.node?, Graph.node?, h.nodes]

theorem slot? (h : SameCells g g') (id : String) : g'.slot? id = g.slot? id := by
  rw [Graph.slot?, Graph.slot?, h.slots]

theorem contact? (h : SameCells g g') (a b : Nat) : g'.contact? a b = g.contact? a b := by
  simp only [Graph.contact?, h.node?]

theorem updateEdge (g : Graph) (id : EdgeId) (f : Edge → Option Edge) : SameCells g (g.updateEdge id f) :=
  ⟨by simp, by simp, by simp, by simp, by simp⟩

end SameCells

theorem contact?_of_joins (g : Graph) {e : Edge} {a b : Nat} (h : e.Joins a b) :
    g.contact? e.source e.target = g.contact? a b := by
  rcases h with ⟨rfl, rfl⟩ | ⟨rfl, rfl⟩
  · rfl
  · exact g.contact?_comm _ _

namespace Wired

variable {Fit : Contact → Edge → Prop} {g : Graph}

theorem placed (h : Wired Fit g) : g.Placed := ⟨h.arena, h.named⟩

/-- The id of a cell leads to the node in its place. -/
theorem slot?_cellId (h : Wired Fit g) {x y s : Nat} : g.slot? (cellId x y) = some s ↔ g.placeOf? s = some (x, y) :=
  h.placed.slot?_cellId

/-- Two nodes in the same place are one. -/
theorem slot_eq_of_place (h : Wired Fit g) {s s' : Nat} {p : Nat × Nat} (hs : g.placeOf? s = some p)
    (hs' : g.placeOf? s' = some p) : s = s' := by
  have hslot := h.slot?_cellId.mpr hs
  rw [h.slot?_cellId.mpr hs'] at hslot
  exact (Option.some.inj hslot).symm

/-- The edges that join two cells are at one place. -/
theorem place_eq_of_joins (h : Wired Fit g) {p p' : Nat} {e e' : Edge} {a b : Nat} (he : g.edgeAt? p = some e)
    (he' : g.edgeAt? p' = some e') (hjoins : e.Joins a b) (hjoins' : e'.Joins a b) : p = p' := by
  refine h.single he he' ?_
  rcases hjoins with ⟨rfl, rfl⟩ | ⟨rfl, rfl⟩
  · exact hjoins'
  · exact hjoins'.comm

/-- An edge that joins two cells is the only one between them, in either direction. -/
theorem between_of_joins (h : Wired Fit g) {p : Nat} {e : Edge} {a b : Nat} (he : g.edgeAt? p = some e)
    (hjoins : e.Joins a b) : g.between a b true = [⟨e, e.source != a⟩] := by
  obtain ⟨c, hcontact, _⟩ := h.fits he
  have hne : a ≠ b := ne_of_contact? ((g.contact?_of_joins hjoins).symm.trans hcontact)
  have hmem : e ∈ g.edgeList := mem_edgeList.mpr ⟨p, he⟩
  have hnodup := h.arena.nodup_edgeIds
  rw [between, leaving_true h.arena h.indexed, List.filter_flatMap, flatMap_of_nodup hnodup hmem]
  · rcases hjoins with ⟨rfl, rfl⟩ | ⟨rfl, rfl⟩
    · simp [viewsFrom, EdgeView.target, Ne.symm hne]
    · simp [viewsFrom, EdgeView.target, Ne.symm hne]
  · intro e' he' hid
    obtain ⟨p', hp'⟩ := mem_edgeList.mp he'
    rw [List.filter_eq_nil_iff]
    intro v hv htarget
    obtain ⟨rfl, rfl⟩ := mem_viewsFrom.mp hv
    obtain rfl : v.target = b := by simpa using htarget
    obtain rfl := h.place_eq_of_joins he hp' hjoins v.joins
    rw [he] at hp'
    exact hid (congrArg Edge.id (Option.some.inj hp').symm)

/-- Between cells that no edge joins there is none. -/
theorem between_eq_nil (h : Wired Fit g) {a b : Nat} (hnone : ∀ p e, g.edgeAt? p = some e → ¬ e.Joins a b) :
    g.between a b true = [] := by
  rw [between, List.filter_eq_nil_iff]
  intro v hv htarget
  obtain ⟨hmem, rfl, _⟩ := (mem_leaving h.arena h.indexed).mp hv
  obtain ⟨p, hp⟩ := mem_edgeList.mp hmem
  obtain rfl : v.target = b := by simpa using htarget
  exact hnone p v.edge hp v.joins

/-- There is nothing between nodes that do not touch. -/
theorem between_of_apart (h : Wired Fit g) {a b : Nat} (hapart : g.contact? a b = none) : g.between a b true = [] := by
  refine h.between_eq_nil fun p e he hjoins => ?_
  obtain ⟨c, hcontact, _⟩ := h.fits he
  rw [g.contact?_of_joins hjoins, hapart] at hcontact
  cases hcontact

/-- Wiring is a matter of the cells and the edges. -/
theorem of_same_cells {g' : Graph} (h : Wired Fit g) (hcells : SameCells g g') (harena : g'.Arena)
    (hindexed : g'.Indexed)
    (hfits : ∀ {p e}, g'.edgeAt? p = some e → ∃ c, g.contact? e.source e.target = some c ∧ Fit c e)
    (hsingle : ∀ {p p' e e'}, g'.edgeAt? p = some e → g'.edgeAt? p' = some e' → e'.Joins e.source e.target → p = p') :
    Wired Fit g' where
  arena := harena
  indexed := hindexed
  named hn := h.named (by rwa [← hcells.node?])
  fits he := by
    rw [hcells.contact?]
    exact hfits he
  single := hsingle

/-- An edge may be changed in all but its ends, as long as it stays one that fits. -/
theorem updateEdge (h : Wired Fit g) (id : EdgeId) {f : Edge → Edge} (hf : SameEdge f)
    (hfit : ∀ {p e c}, place? id = some p → g.edgeAt? p = some e → g.contact? e.source e.target = some c → Fit c e →
      Fit c (f e)) : Wired Fit (g.updateEdge id fun e => some (f e)) := by
  have hmutation := Mutation.changeEdge g id hf
  have hold : ∀ {p e'}, (g.updateEdge id fun e => some (f e)).edgeAt? p = some e' →
      ∃ e, g.edgeAt? p = some e ∧ e'.source = e.source ∧ e'.target = e.target ∧
        (e' = e ∨ place? id = some p ∧ e' = f e) := by
    intro p e' he'
    rw [edgeAt?_updateEdge] at he'
    split at he'
    · rename_i hplace
      obtain ⟨e, he, hfe⟩ := Option.bind_eq_some_iff.mp he'
      cases hfe
      obtain ⟨_, hsource, htarget⟩ := hf e
      exact ⟨e, he, hsource, htarget, .inr ⟨hplace, rfl⟩⟩
    · exact ⟨e', he', rfl, rfl, .inl rfl⟩
  refine h.of_same_cells (.updateEdge g id _) (hmutation.arena h.arena) (hmutation.indexed h.indexed) ?_ ?_
  · intro p e' he'
    obtain ⟨e, he, hsource, htarget, hchanged⟩ := hold he'
    obtain ⟨c, hcontact, hfits⟩ := h.fits he
    refine ⟨c, by rw [hsource, htarget, hcontact], ?_⟩
    rcases hchanged with rfl | ⟨hplace, rfl⟩
    · exact hfits
    · exact hfit hplace he hcontact hfits
  · intro p p' e e' he he' hjoins
    obtain ⟨old, hpold, hsource, htarget, _⟩ := hold he
    obtain ⟨old', hpold', hsource', htarget', _⟩ := hold he'
    unfold Edge.Joins at hjoins
    rw [hsource, htarget, hsource', htarget'] at hjoins
    exact h.single hpold hpold' hjoins

/-- An edge may be added between two cells that no edge joins yet. -/
theorem push (h : Wired Fit g) {g' : Graph} (hcells : SameCells g g') (harena : g'.Arena) (hindexed : g'.Indexed)
    {new : Edge} (hedges : ∀ p, g'.edgeAt? p = if p = g.edges.size then some new else g.edgeAt? p) {c : Contact}
    (hcontact : g.contact? new.source new.target = some c) (hfit : Fit c new)
    (hfree : ∀ p e, g.edgeAt? p = some e → ¬ e.Joins new.source new.target) : Wired Fit g' := by
  refine h.of_same_cells hcells harena hindexed ?_ ?_
  · intro p e he
    rw [hedges] at he
    split at he
    · cases he
      exact ⟨c, hcontact, hfit⟩
    · exact h.fits he
  · intro p p' e e' he he' hjoins
    rw [hedges] at he he'
    split at he
    · rename_i hp
      cases he
      split at he'
      · rename_i hp'
        rw [hp, hp']
      · exact absurd hjoins (hfree p' e' he')
    · split at he'
      · cases he'
        refine absurd ?_ (hfree p e he)
        rcases hjoins with ⟨hsource, htarget⟩ | ⟨hsource, htarget⟩
        · exact .inl ⟨hsource.symm, htarget.symm⟩
        · exact .inr ⟨htarget.symm, hsource.symm⟩
      · exact h.single he he' hjoins

end Wired

/-! ## Completing edges -/

/-- Data with the cost of diagonals set in them. -/
def weighed (diagonal : Diagonal) (data : Bag) : Bag :=
  (data.set "w" (.ofFloat diagonal.value)).set "forbidden" (.bool (diagonal.value < 0.0))

/-- Only the cost that was set last counts. -/
theorem weighed_weighed (d d' : Diagonal) (data : Bag) : weighed d (weighed d' data) = weighed d data := by
  have hthere : (Bag.get? (data.set "w" (.ofFloat d'.value)) "w").isSome = true := by
    rw [Bag.get?_set, if_pos rfl]
    rfl
  unfold weighed
  rw [Bag.set_comm _ _ (by decide) hthere, Bag.set_set, Bag.set_set]

/-- What an edge may be like allows for edges that completing adds and weighs. -/
structure Completable (Fit : Contact → Edge → Prop) (d : Diagonal) : Prop where
  straight : ∀ id source target, Fit .orthogonal { id, source, target, bidirectional := true }
  across : ∀ id source target, Fit .diagonal { id, source, target, bidirectional := true, data := weighed d [] }
  reweighed : ∀ e, Fit .diagonal e → Fit .diagonal { e with data := weighed d e.data }

/-- An edge joins two cells, at the cost of diagonals if they touch at a corner. -/
def Tied (d : Diagonal) (g : Graph) (a b : Nat) : Prop :=
  ∃ p e, g.edgeAt? p = some e ∧ e.Joins a b ∧ (g.contact? a b = some .diagonal → weighed d e.data = e.data)

/-- At some place an edge joins two nodes. -/
def JoinedAt (g : Graph) (p a b : Nat) : Prop := ∃ e, g.edgeAt? p = some e ∧ e.Joins a b

/-- One graph comes of another by completing edges: its cells are the same, it stays wired, cells that are tied stay so,
and the edges that were there stay in their places. -/
structure Completes (Fit : Contact → Edge → Prop) (d : Diagonal) (g g' : Graph) : Prop extends SameCells g g' where
  wired : Wired Fit g → Wired Fit g'
  tied : ∀ {a b}, Tied d g a b → Tied d g' a b
  kept : ∀ {p a b}, JoinedAt g p a b → JoinedAt g' p a b

namespace Completes

variable {Fit : Contact → Edge → Prop} {d : Diagonal} {g g' g'' : Graph}

theorem refl (g : Graph) : Completes Fit d g g where
  toSameCells := .refl g
  wired h := h
  tied h := h
  kept h := h

theorem trans (h : Completes Fit d g g') (h' : Completes Fit d g' g'') : Completes Fit d g g'' where
  toSameCells := h.toSameCells.trans h'.toSameCells
  wired hg := h'.wired (h.wired hg)
  tied ht := h'.tied (h.tied ht)
  kept hj := h'.kept (h.kept hj)

/-- Neither the index nor what is drawn has to do with the cells and the edges. -/
theorem of_same_edges (hcells : SameCells g g') (hedges : g'.edges = g.edges) (harena : g.Arena → g'.Arena)
    (hindexed : g.Indexed → g'.Indexed) : Completes Fit d g g' where
  toSameCells := hcells
  wired h := by
    have hsame : ∀ p, g'.edgeAt? p = g.edgeAt? p := fun p => by rw [edgeAt?, edgeAt?, hedges]
    refine h.of_same_cells hcells (harena h.arena) (hindexed h.indexed) ?_ ?_
    · intro p e he
      exact h.fits (by rwa [← hsame])
    · intro p p' e e' he he'
      exact h.single (by rwa [← hsame]) (by rwa [← hsame])
  tied := by
    rintro a b ⟨p, e, he, hjoins, hweighed⟩
    exact ⟨p, e, by rw [edgeAt?, hedges]; exact he, hjoins, by rwa [hcells.contact?]⟩
  kept := by
    rintro p a b ⟨e, he, hjoins⟩
    exact ⟨e, by rw [edgeAt?, hedges]; exact he, hjoins⟩

end Completes

section Steps

variable {Fit : Contact → Edge → Prop} {d : Diagonal} {g : Graph} {a b : Nat}

/-- Weighing the edge between two cells that touch at a corner ties them. -/
theorem completes_weighDiagonal (hfit : Completable Fit d) {p : Nat} {e : Edge} (he : g.edgeAt? p = some e)
    (hjoins : e.Joins a b) (hcontact : g.contact? a b = some .diagonal) {id : EdgeId} (hid : place? id = some p) :
    Completes Fit d g (g.weighDiagonal id d) ∧ Tied d (g.weighDiagonal id d) a b := by
  have hcells : SameCells g (g.weighDiagonal id d) := .updateEdge g id _
  have hedge : ∀ {q old}, g.edgeAt? q = some old → (g.weighDiagonal id d).edgeAt? q =
      some (if q = p then { old with data := weighed d old.data } else old) := by
    intro q old hold
    rw [weighDiagonal, edgeAt?_updateEdge, hid, hold]
    by_cases hq : q = p
    · simp [hq, weighed]
    · simp [hq, Ne.symm hq]
  refine ⟨⟨hcells, ?_, ?_, ?_⟩, ?_⟩
  · intro h
    refine h.updateEdge id (fun e => ⟨rfl, rfl, rfl⟩) ?_
    intro q old c hq hold hc hfits
    obtain rfl : p = q := Option.some.inj (hid.symm.trans hq)
    obtain rfl : e = old := Option.some.inj (he.symm.trans hold)
    obtain rfl : c = .diagonal := by
      rw [g.contact?_of_joins hjoins, hcontact] at hc
      exact (Option.some.inj hc).symm
    exact hfit.reweighed e hfits
  · rintro a' b' ⟨q, old, hold, hjoins', hweighed⟩
    refine ⟨q, _, hedge hold, ?_, ?_⟩
    · split <;> exact hjoins'
    · rw [hcells.contact?]
      intro hcontact'
      split
      · exact weighed_weighed d d old.data
      · exact hweighed hcontact'
  · rintro q a' b' ⟨old, hold, hjoins'⟩
    refine ⟨_, hedge hold, ?_⟩
    split <;> exact hjoins'
  · refine ⟨p, _, hedge he, ?_, fun _ => ?_⟩
    · rw [if_pos rfl]
      exact hjoins
    · rw [if_pos rfl]
      exact weighed_weighed d d e.data

/-- Linking two cells that no edge joins, at the cost of diagonals if they touch at a corner, ties them. -/
theorem completes_linkCells (hfit : Completable Fit d) (ha : g.Live a) (hb : g.Live b) {c : Contact}
    (hcontact : g.contact? a b = some c) (hfree : ∀ p e, g.edgeAt? p = some e → ¬ e.Joins a b) :
    Completes Fit d g (if c = .diagonal then (g.linkCells a b).2.weighDiagonal (g.linkCells a b).1 d
      else (g.linkCells a b).2) ∧
    Tied d (if c = .diagonal then (g.linkCells a b).2.weighDiagonal (g.linkCells a b).1 d
      else (g.linkCells a b).2) a b := by
  have hlinked : ∀ p, (g.linkCells a b).2.edgeAt? p = if p = g.edges.size then
      some { id := g.nextEdgeId, source := a, target := b, bidirectional := true } else g.edgeAt? p :=
    g.edgeAt?_withEdge a b true []
  have hlink := Mutation.linkCells g ha hb
  -- What is to be shown of the new edge is the same with and without a cost set in its data.
  have htied : ∀ {g' : Graph} {data : Bag}, SameCells g g' → (g.Arena → g'.Arena) → (g.Indexed → g'.Indexed) →
      (∀ p, g'.edgeAt? p = if p = g.edges.size then
        some { id := g.nextEdgeId, source := a, target := b, bidirectional := true, data } else g.edgeAt? p) →
      Fit c { id := g.nextEdgeId, source := a, target := b, bidirectional := true, data } →
      (c = .diagonal → weighed d data = data) → Completes Fit d g g' ∧ Tied d g' a b := by
    intro g' data hcells harena hindexed hedges hnew hweighed
    have hold : ∀ {q old}, g.edgeAt? q = some old → g'.edgeAt? q = some old := by
      intro q old hold
      have hq : q ≠ g.edges.size := by
        rintro rfl
        simp [edgeAt?] at hold
      rw [hedges, if_neg hq, hold]
    refine ⟨⟨hcells, ?_, ?_, ?_⟩, ?_⟩
    · intro h
      exact h.push hcells (harena h.arena) (hindexed h.indexed) hedges hcontact hnew hfree
    · rintro a' b' ⟨q, old, hq, hjoins, hweighed'⟩
      exact ⟨q, old, hold hq, hjoins, by rwa [hcells.contact?]⟩
    · rintro q a' b' ⟨old, hq, hjoins⟩
      exact ⟨old, hold hq, hjoins⟩
    · refine ⟨g.edges.size, _, by rw [hedges, if_pos rfl], .inl ⟨rfl, rfl⟩, ?_⟩
      rw [hcells.contact?, hcontact]
      intro hdiagonal
      exact hweighed (Option.some.inj hdiagonal)
  cases c with
  | orthogonal =>
      rw [if_neg (by decide)]
      exact htied ⟨rfl, rfl, rfl, rfl, rfl⟩ hlink.arena hlink.indexed hlinked (hfit.straight _ _ _) (by simp)
  | diagonal =>
      rw [if_pos rfl]
      have hweigh : Mutation (g.linkCells a b).2 ((g.linkCells a b).2.weighDiagonal (g.linkCells a b).1 d) :=
        .changeEdge _ _ fun _ => ⟨rfl, rfl, rfl⟩
      have hsame : SameCells g (g.linkCells a b).2 := ⟨rfl, rfl, rfl, rfl, rfl⟩
      have hcells : SameCells g ((g.linkCells a b).2.weighDiagonal (g.linkCells a b).1 d) :=
        hsame.trans (SameCells.updateEdge (g.linkCells a b).2 (g.linkCells a b).1 _)
      have hplace : place? (g.linkCells a b).1 = some g.edges.size := place?_eq_some_iff.mpr (.inl rfl)
      refine htied hcells (fun h => hweigh.arena (hlink.arena h)) (fun h => hweigh.indexed (hlink.indexed h)) ?_
        (hfit.across _ _ _) fun _ => weighed_weighed d d []
      intro p
      rw [weighDiagonal, edgeAt?_updateEdge, hplace, hlinked]
      by_cases hp : p = g.edges.size
      · simp [hp, weighed]
      · simp [hp, Ne.symm hp]

/-- The place of an id that an edge is seen under is that of the edge. -/
theorem place?_view (h : g.Arena) {p : Nat} {e : Edge} (he : g.edgeAt? p = some e) (reversed : Bool) :
    place? (EdgeView.id ⟨e, reversed⟩) = some p := by
  cases reversed <;> simp [EdgeView.id, h.number he, place?_eq_some_iff, EdgeId.reversed]

/-- Completing the edge to a cell beside a node ties the two. -/
theorem completes_completeEdge (hfit : Completable Fit d) (h : Wired Fit g) {cell : Neighbour} {c : Contact}
    (hcontact : g.contact? a b = some c) (hcell : g.cellSlot cell.x cell.y = .ok b)
    (hdiagonal : cell.isDiagonal = decide (c = .diagonal)) :
    ∃ g', completeEdge a d cell g = .ok () g' ∧ Completes Fit d g g' ∧ Tied d g' a b := by
  by_cases hjoined : ∃ p e, g.edgeAt? p = some e ∧ e.Joins a b
  · obtain ⟨p, e, he, hjoins⟩ := hjoined
    refine ⟨if cell.isDiagonal then g.weighDiagonal (EdgeView.id ⟨e, e.source != a⟩) d else g, ?_, ?_⟩
    · simp [completeEdge, hcell, h.between_of_joins he hjoins]
    · cases c with
      | orthogonal =>
          have hstraight : cell.isDiagonal = false := by simpa using hdiagonal
          rw [hstraight, if_neg Bool.false_ne_true]
          refine ⟨.refl g, p, e, he, hjoins, ?_⟩
          rw [hcontact]
          exact fun hacross => absurd hacross (by simp)
      | diagonal =>
          have hacross : cell.isDiagonal = true := by simpa using hdiagonal
          rw [hacross, if_pos rfl]
          exact completes_weighDiagonal hfit he hjoins hcontact (place?_view h.arena he _)
  · have hfree : ∀ p e, g.edgeAt? p = some e → ¬ e.Joins a b := fun p e he hjoins => hjoined ⟨p, e, he, hjoins⟩
    have hlive : g.Live a ∧ g.Live b := by
      unfold contact? at hcontact
      split at hcontact
      · rename_i ha hb
        exact ⟨live_iff.mpr ⟨_, ha⟩, live_iff.mpr ⟨_, hb⟩⟩
      · exact absurd hcontact (by simp)
    have hlinked := completes_linkCells hfit hlive.1 hlive.2 hcontact hfree
    refine ⟨_, ?_, hlinked⟩
    simp [completeEdge, hcell, h.between_eq_nil hfree, hdiagonal]

end Steps

/-! ## Completing all edges -/

/-- A wired grid of a size has just the cells within its bounds. -/
structure Filled (Fit : Contact → Edge → Prop) (spec : GridSpec) (g : Graph) : Prop where
  grid : g.grid = some spec
  wired : Wired Fit g
  inside : ∀ {s x y}, g.placeOf? s = some (x, y) → x < spec.width ∧ y < spec.height
  filled : ∀ {x y}, x < spec.width → y < spec.height → ∃ s, g.slot? (cellId x y) = some s

theorem Filled.tiled {Fit : Contact → Edge → Prop} {spec : GridSpec} {g : Graph} (h : Filled Fit spec g) :
    Tiled spec g :=
  ⟨h.wired.placed, h.grid, h.inside, h.filled⟩

/-- Cells that are wired fill a grid. -/
theorem Tiled.toFilled {Fit : Contact → Edge → Prop} {spec : GridSpec} {g : Graph} (h : Tiled spec g)
    (hwired : Wired Fit g) : Filled Fit spec g :=
  ⟨h.grid, hwired, h.inside, h.filled⟩

/-- A lattice: all cells are there, and those that touch are joined. -/
structure Lattice (Fit : Contact → Edge → Prop) (spec : GridSpec) (g : Graph) : Prop extends Filled Fit spec g where
  joined : ∀ {a b c}, g.contact? a b = some c → ∃ p e, g.edgeAt? p = some e ∧ e.Joins a b

section All

variable {Fit : Contact → Edge → Prop} {spec : GridSpec} {g : Graph}

theorem SameCells.placeOf? {g' : Graph} (h : SameCells g g') (s : Nat) : g'.placeOf? s = g.placeOf? s := by
  rw [Graph.placeOf?, Graph.placeOf?, h.node?]

/-- Completing edges does not touch the cells. -/
theorem Filled.of_completes (h : Filled Fit spec g) {d : Diagonal} {g' : Graph} (hg : Completes Fit d g g') :
    Filled Fit spec g' where
  grid := hg.grid.trans h.grid
  wired := hg.wired h.wired
  inside hs := h.inside (by rwa [← hg.placeOf?])
  filled hx hy := by
    obtain ⟨s, hs⟩ := h.filled hx hy
    exact ⟨s, (hg.slot? _).trans hs⟩

/-- Completing the edges around a node ties it to all cells that it touches. -/
theorem completes_completeEdges (hfit : Completable Fit spec.diagonal) (h : Filled Fit spec g) {a : Nat}
    (ha : g.Live a) :
    ∃ g', completeEdges a g = .ok () g' ∧ Completes Fit spec.diagonal g g' ∧
      ∀ b c, g'.contact? a b = some c → Tied spec.diagonal g' a b := by
  obtain ⟨n, hn⟩ := live_iff.mp ha
  have hplace : ∀ {s}, Completes Fit spec.diagonal g s → s.placeOf? a = some (n.x, n.y) := by
    intro s hs
    rw [hs.placeOf?, placeOf?, hn]
    rfl
  have hreindex : Completes Fit spec.diagonal g g.reindex :=
    .of_same_edges ⟨rfl, rfl, rfl, rfl, rfl⟩ rfl (Mutation.reindex g).arena (Mutation.reindex g).indexed
  obtain ⟨g', hall, hleads, htied⟩ := Edit.forM_reaches (neighbours spec.width spec.height n.x n.y)
    (completeEdge a spec.diagonal) (Completes Fit spec.diagonal)
    (fun cell s => ∀ b, s.slot? (cellId cell.x cell.y) = some b → Tied spec.diagonal s a b) g.reindex .refl .trans
    (fun hs hreached b hb => hs.tied (hreached b (by rwa [← hs.slot?])))
    (by
      intro cell hcell s hs
      have hleads := hreindex.trans hs
      have hfilled := h.of_completes hleads
      obtain ⟨⟨c, htouch, hdiagonal⟩, hx, hy⟩ := mem_neighbours.mp hcell
      obtain ⟨b, hb⟩ := hfilled.filled hx hy
      have hcontact : s.contact? a b = some c := by
        rw [contact?_of_places (hplace hleads) (hfilled.wired.slot?_cellId.mp hb), htouch]
      have hslot : s.cellSlot cell.x cell.y = .ok b := by simp [cellSlot, hb]
      obtain ⟨t, hedit, ht, htied⟩ := completes_completeEdge hfit hfilled.wired hcontact hslot hdiagonal
      refine ⟨t, hedit, ht, fun b' hb' => ?_⟩
      obtain rfl : b = b' := by
        rw [ht.slot?, hb] at hb'
        exact Option.some.inj hb'
      exact htied)
  have hleads := hreindex.trans hleads
  refine ⟨g', ?_, hleads, fun b c hcontact => ?_⟩
  · rw [← hall]
    simp [completeEdges, gridSpec, h.grid, hn]
  · have hfilled := h.of_completes hleads
    rw [contact?_eq, hplace hleads, Option.bind_some] at hcontact
    obtain ⟨⟨x, y⟩, hb, htouch⟩ := Option.bind_eq_some_iff.mp hcontact
    obtain ⟨hx, hy⟩ := hfilled.inside hb
    have hcell : (⟨x, y, decide (c = .diagonal)⟩ : Neighbour) ∈ neighbours spec.width spec.height n.x n.y :=
      mem_neighbours.mpr ⟨⟨c, htouch, rfl⟩, hx, hy⟩
    exact htied _ hcell b (hfilled.wired.slot?_cellId.mpr hb)

/-- **Completing all edges makes a lattice**: afterwards cells that touch are joined, each edge across a corner has the
cost of diagonals, and the edges that were there are in their places. -/
theorem Filled.completeAllEdges (h : Filled Fit spec g) (hfit : Completable Fit spec.diagonal) :
    ∃ g', Graph.completeAllEdges g = .ok () g' ∧ SameCells g g' ∧ Lattice Fit spec g' ∧
      (∀ {p e}, g'.edgeAt? p = some e → g'.contact? e.source e.target = some .diagonal →
        weighed spec.diagonal e.data = e.data) ∧
      ∀ {p a b}, JoinedAt g p a b → JoinedAt g' p a b := by
  obtain ⟨s, hall, hleads, htied⟩ := Edit.forM_reaches (g.nodeList.map Node.slot) completeEdges
    (Completes Fit spec.diagonal) (fun a s => ∀ b c, s.contact? a b = some c → Tied spec.diagonal s a b) g .refl .trans
    (fun hs hreached b c hcontact => hs.tied (hreached b c (by rwa [← hs.contact?])))
    (by
      intro a ha s hs
      obtain ⟨n, hn, rfl⟩ := List.mem_map.mp ha
      obtain ⟨slot, hslot⟩ := mem_nodeList.mp hn
      have hlive : s.Live n.slot := by
        rw [h.wired.arena.slot hslot, live_iff]
        exact ⟨n, (hs.node? slot).trans hslot⟩
      exact completes_completeEdges hfit (h.of_completes hs) hlive)
  have hredraw : Completes Fit spec.diagonal s s.redraw :=
    .of_same_edges ⟨rfl, rfl, rfl, rfl, rfl⟩ rfl (Mutation.settings s true _ _ _).arena
      (Mutation.settings s true _ _ _).indexed
  have hleads' := hleads.trans hredraw
  have hties : ∀ {a b c}, s.redraw.contact? a b = some c → Tied spec.diagonal s.redraw a b := by
    intro a b c hcontact
    rw [hredraw.contact?] at hcontact
    have ha : a ∈ g.nodeList.map Node.slot := by
      rw [hleads.contact?] at hcontact
      unfold contact? at hcontact
      split at hcontact
      · rename_i m _ hm _
        exact List.mem_map.mpr ⟨m, mem_nodeList.mpr ⟨a, hm⟩, h.wired.arena.slot hm⟩
      · exact absurd hcontact (by simp)
    exact hredraw.tied (htied a ha b c hcontact)
  refine ⟨s.redraw, ?_, hleads'.toSameCells, ⟨h.of_completes hleads', ?_⟩, ?_, hleads'.kept⟩
  · simp [Graph.completeAllEdges, hall]
  · intro a b c hcontact
    obtain ⟨p, e, he, hjoins, _⟩ := hties hcontact
    exact ⟨p, e, he, hjoins⟩
  · intro p e he hcontact
    obtain ⟨p', e', he', hjoins, hweighed⟩ := hties hcontact
    obtain rfl := (hleads'.wired h.wired).single he he' hjoins
    obtain rfl : e = e' := Option.some.inj (he.symm.trans he')
    exact hweighed hcontact

end All

end Graph

end SearchLab
