import SearchLab.Proofs.Graph.Upkeep

/-!
# What a new size spares

A new size lays the cells that are missing, drops those outside and completes the edges of all others. On its way the
grid is no lattice, but what lies within the new size is spared at every step (`Spares`): its cells, the start and the
goal, and the edges between its cells, in the data of which at most the cost of diagonals is set. Whatever else comes to
be there was just laid.

* `spares_insertCell`, `Spares.dropNode`, `completing_spares` — the phases;
* `rewired_of_spared`, `Spares.resized` — what a new size leaves behind, along sides and across corners;
* `resize_spares` — any grid and any new size, that is refused or not.
-/

namespace SearchLab.Graph

variable {Fit : Contact → Edge → Prop} {spec : GridSpec} {g g' g'' : Graph} {width height : Nat} {d : Diagonal}

/-! ## Edges that are spared -/

/-- An edge with the cost of diagonals set in its data. -/
def reweighed (d : Diagonal) (e : Edge) : Edge := { e with data := weighed d e.data }

/-- An edge as it was, or with the cost of diagonals set in its data. -/
def Spared (d : Diagonal) (e e' : Edge) : Prop := e' = e ∨ e' = reweighed d e

namespace Spared

variable {e e' e'' : Edge}

theorem refl (e : Edge) : Spared d e e := .inl rfl

theorem trans (h : Spared d e e') (h' : Spared d e' e'') : Spared d e e'' := by
  rcases h with rfl | rfl
  · exact h'
  · rcases h' with rfl | rfl
    · exact .inr rfl
    · exact .inr (by simp [reweighed, weighed_weighed])

theorem address (h : Spared d e e') : e'.id = e.id ∧ e'.source = e.source ∧ e'.target = e.target := by
  rcases h with rfl | rfl <;> exact ⟨rfl, rfl, rfl⟩

end Spared

/-- An edge that may be walked both ways, with nothing on it. -/
def bare (id : EdgeId) (source target : Nat) : Edge := { id, source, target, bidirectional := true }

/-- What an edge at a place has been: one of a graph, or a bare one behind all of these. -/
def Began (g : Graph) (p : Nat) (e : Edge) : Prop :=
  g.edgeAt? p = some e ∨ g.edges.size ≤ p ∧ ∃ id source target, e = bare id source target

/-- The cell in a slot lies within a size. -/
def LiesWithin (g : Graph) (width height slot : Nat) : Prop :=
  ∃ n, g.node? slot = some n ∧ n.x < width ∧ n.y < height

/-! ## Steps that spare -/

/-- One graph comes of another by steps that spare what lies within a size. -/
structure Spares (width height : Nat) (d : Diagonal) (g g' : Graph) : Prop where
  start : g'.start = g.start
  goal : g'.goal = g.goal
  diagonal : g'.grid.map GridSpec.diagonal = some d
  room : g.nodes.size ≤ g'.nodes.size
  size : g.edges.size ≤ g'.edges.size
  cell : ∀ {s n}, g.node? s = some n → n.x < width → n.y < height → g'.node? s = some n
  laid : ∀ {s n}, g'.node? s = some n → g.node? s = some n ∨ g.nodes.size ≤ s ∧ n.data = [] ∧ n.style = []
  edge : ∀ {p e}, g.edgeAt? p = some e → g.LiesWithin width height e.source → g.LiesWithin width height e.target →
    ∃ e', g'.edgeAt? p = some e' ∧ Spared d e e'
  back : ∀ {p e'}, g'.edgeAt? p = some e' → ∃ e, g.Began p e ∧ Spared d e e'

namespace Spares

theorem refl (hgrid : g.grid.map GridSpec.diagonal = some d) : Spares width height d g g where
  start := rfl
  goal := rfl
  diagonal := hgrid
  room := Nat.le_refl _
  size := Nat.le_refl _
  cell hn _ _ := hn
  laid := .inl
  edge he _ _ := ⟨_, he, .refl _⟩
  back he := ⟨_, .inl he, .refl _⟩

/-- Where the cells stay, edges may be added behind all others, and the cost of diagonals may be set. -/
theorem wire (h : Spares width height d g g') (hcells : SameCells g' g'') (hsize : g'.edges.size ≤ g''.edges.size)
    (hkept : ∀ {p e}, g'.edgeAt? p = some e → ∃ e', g''.edgeAt? p = some e' ∧ Spared d e e')
    (hback : ∀ {p e'}, g''.edgeAt? p = some e' → ∃ e, g'.Began p e ∧ Spared d e e') :
    Spares width height d g g'' where
  start := hcells.start.trans h.start
  goal := hcells.goal.trans h.goal
  diagonal := hcells.grid ▸ h.diagonal
  room := hcells.nodes ▸ h.room
  size := Nat.le_trans h.size hsize
  cell hn hx hy := (hcells.node? _).trans (h.cell hn hx hy)
  laid hn := h.laid ((hcells.node? _).symm.trans hn)
  edge he hsource htarget := by
    obtain ⟨e', he', hspared⟩ := h.edge he hsource htarget
    obtain ⟨e'', he'', hspared'⟩ := hkept he'
    exact ⟨e'', he'', hspared.trans hspared'⟩
  back he'' := by
    obtain ⟨e', hbegan | ⟨hplace, hbare⟩, hspared'⟩ := hback he''
    · obtain ⟨e, hbegan', hspared⟩ := h.back hbegan
      exact ⟨e, hbegan', hspared.trans hspared'⟩
    · exact ⟨e', .inr ⟨Nat.le_trans h.size hplace, hbare⟩, hspared'⟩

/-- Neither the index nor what is drawn has to do with what is spared. -/
theorem of_same_edges (h : Spares width height d g g') (hcells : SameCells g' g'') (hedges : g''.edges = g'.edges) :
    Spares width height d g g'' := by
  have hsame : ∀ p, g''.edgeAt? p = g'.edgeAt? p := fun p => by rw [edgeAt?, edgeAt?, hedges]
  exact h.wire hcells (hedges ▸ Nat.le_refl _) (fun he => ⟨_, (hsame _).trans he, .refl _⟩)
    fun he => ⟨_, .inl ((hsame _).symm.trans he), .refl _⟩

theorem weighDiagonal (h : Spares width height d g g') (id : EdgeId) :
    Spares width height d g (g'.weighDiagonal id d) := by
  have hedges : ∀ p, (g'.weighDiagonal id d).edgeAt? p =
      if place? id = some p then (g'.edgeAt? p).map (reweighed d) else g'.edgeAt? p := edgeAt?_changeEdge g' id _
  refine h.wire (.updateEdge g' id _) ?_ ?_ ?_
  · unfold Graph.weighDiagonal updateEdge
    split <;> simp
  · intro p e he
    rw [hedges, he]
    split
    · exact ⟨_, rfl, .inr rfl⟩
    · exact ⟨_, rfl, .refl e⟩
  · intro p e' he'
    rw [hedges] at he'
    split at he'
    · obtain ⟨e, he, rfl⟩ := Option.map_eq_some_iff.mp he'
      exact ⟨e, .inl he, .inr rfl⟩
    · exact ⟨e', .inl he', .refl e'⟩

theorem linkCells (h : Spares width height d g g') (source target : Nat) :
    Spares width height d g (g'.linkCells source target).2 := by
  have hedges : ∀ p, (g'.linkCells source target).2.edgeAt? p =
      if p = g'.edges.size then some (bare g'.nextEdgeId source target) else g'.edgeAt? p :=
    g'.edgeAt?_withEdge source target true []
  refine h.wire ⟨rfl, rfl, rfl, rfl, rfl⟩ (by simp [Graph.linkCells]) ?_ ?_
  · intro p e he
    have hp : p ≠ g'.edges.size := by
      rintro rfl
      simp [edgeAt?] at he
    exact ⟨e, by rw [hedges, if_neg hp, he], .refl e⟩
  · intro p e' he'
    rw [hedges] at he'
    split at he'
    · rename_i hp
      exact ⟨e', .inr ⟨Nat.le_of_eq hp.symm, _, _, _, (Option.some.inj he').symm⟩, .refl e'⟩
    · exact ⟨e', .inl he', .refl e'⟩

/-- A cell may be laid, with nothing on it. -/
theorem withNode (h : Spares width height d g g') (id : String) (x y : Nat) :
    Spares width height d g (g'.withNode id x y []) where
  start := h.start
  goal := h.goal
  diagonal := h.diagonal
  room := Nat.le_trans h.room (by simp [Graph.withNode])
  size := h.size
  cell hn hx hy := by
    have hkept := h.cell hn hx hy
    rw [node?_withNode, if_neg, hkept]
    rintro rfl
    rw [node?_size] at hkept
    cases hkept
  laid hn := by
    rw [node?_withNode] at hn
    split at hn
    · rename_i hnew
      cases hn
      exact .inr ⟨hnew ▸ h.room, rfl, rfl⟩
    · exact h.laid hn
  edge := h.edge
  back := h.back

/-- The cell in a slot outside may be dropped, if it is neither start nor goal. -/
theorem dropNode (h : Spares width height d g g') {slot : Nat} (houtside : ¬ g.LiesWithin width height slot)
    (hstart : g.start ≠ some slot) (hgoal : g.goal ≠ some slot) : Spares width height d g (g'.dropNode slot) := by
  by_cases hlive : g'.Live slot
  · obtain ⟨n, hn⟩ := live_iff.mp hlive
    have hedges := edgeAt?_dropNode hlive
    constructor
    · simp [Graph.dropNode, hn, h.start, hstart]
    · simp [Graph.dropNode, hn, h.goal, hgoal]
    · simpa [Graph.dropNode, hn] using h.diagonal
    · simpa [Graph.dropNode, hn] using h.room
    · simpa [Graph.dropNode, hn] using h.size
    · intro s m hm hx hy
      rw [node?_dropNode, if_neg, h.cell hm hx hy]
      rintro rfl
      exact houtside ⟨m, hm, hx, hy⟩
    · intro s m hm
      rw [node?_dropNode] at hm
      split at hm
      · cases hm
      · exact h.laid hm
    · intro p e he hsource htarget
      obtain ⟨e', he', hspared⟩ := h.edge he hsource htarget
      obtain ⟨_, hsource', htarget'⟩ := hspared.address
      have hapart : e'.source ≠ slot ∧ e'.target ≠ slot :=
        ⟨fun hsame => houtside (hsame ▸ hsource' ▸ hsource), fun hsame => houtside (hsame ▸ htarget' ▸ htarget)⟩
      exact ⟨e', by simp [hedges, he', Edge.touches, hapart], hspared⟩
    · intro p e' he'
      rw [hedges, Option.filter_eq_some_iff] at he'
      exact h.back he'.1
  · have hnone : g'.node? slot = none := by simpa [Live] using hlive
    have hsame : g'.dropNode slot = g' := by simp [Graph.dropNode, hnone]
    rwa [hsame]

theorem dropNodes (h : Spares width height d g g') {slots : List Nat}
    (hslots : ∀ slot ∈ slots, ¬ g.LiesWithin width height slot ∧ g.start ≠ some slot ∧ g.goal ≠ some slot) :
    Spares width height d g (slots.foldl Graph.dropNode g') := by
  induction slots generalizing g' with
  | nil => exact h
  | cons slot rest ih =>
      obtain ⟨⟨houtside, hstart, hgoal⟩, hrest⟩ := List.forall_mem_cons.mp hslots
      exact ih (h.dropNode houtside hstart hgoal) hrest

/-- Another size with the same cost of diagonals. -/
theorem withGrid (h : Spares width height d g g') (spec : GridSpec) (hspec : spec.diagonal = d) :
    Spares width height d g { g' with grid := some spec } :=
  ⟨h.start, h.goal, by rw [← hspec]; rfl, h.room, h.size, h.cell, h.laid, h.edge, h.back⟩

end Spares

/-! ## The phases of a new size -/

theorem spares_insertCell (cell : Nat × Nat) : (insertCell cell).Keeps (Spares width height d g) := by
  intro g' h
  cases hslot : g'.slot? (cellId cell.1 cell.2) with
  | some slot => rwa [Edit.after_ok (insertCell_of_some hslot)]
  | none =>
      rw [Edit.after_ok (insertCell_of_none hslot)]
      exact h.withNode (cellId cell.1 cell.2) cell.1 cell.2

theorem completing_spares (width height : Nat) (d : Diagonal) (g : Graph) :
    Completing (Spares width height d g) where
  reindex h := h.of_same_edges ⟨rfl, rfl, rfl, rfl, rfl⟩ rfl
  redraw h := h.of_same_edges ⟨rfl, rfl, rfl, rfl, rfl⟩ rfl
  link source target h := h.linkCells source target
  weigh {_ spec} id hgrid h := by
    obtain rfl : spec.diagonal = d := by
      have hdiagonal := h.diagonal
      rw [hgrid] at hdiagonal
      exact Option.some.inj hdiagonal
    exact h.weighDiagonal id

/-- A new size would drop the start or the goal. -/
def DropsEnd (g : Graph) (width height : Nat) : Prop :=
  ∃ n ∈ g.nodeList, (width ≤ n.x ∨ height ≤ n.y) ∧ (some n.slot = g.start ∨ some n.slot = g.goal)

theorem any_slotsBeyond : ((g.slotsBeyond width height).any fun slot =>
    decide (some slot = g.start) || decide (some slot = g.goal)) = true ↔ g.DropsEnd width height := by
  simp only [slotsBeyond, DropsEnd, List.any_map, List.any_filter, List.any_eq_true, Function.comp_apply, Bool.and_eq_true,
    Bool.or_eq_true, decide_eq_true_eq]

/-- **A new size that is taken** spares what lies within it. -/
theorem spares_of_resize (hg : g.Arena) (hgrid : g.grid = some spec) (h : resize width height g = .ok () g') :
    Spares width height spec.diagonal g g' := by
  rw [resize_eq hgrid] at h
  split at h
  · cases h
  · rename_i hends
    have hspared : ∀ slot ∈ g.slotsBeyond width height,
        ¬ g.LiesWithin width height slot ∧ g.start ≠ some slot ∧ g.goal ≠ some slot := by
      intro slot hslot
      obtain ⟨n, hn, hfar⟩ := (mem_slotsBeyond hg).mp hslot
      have hneither : ¬ (some slot = g.start ∨ some slot = g.goal) := fun hend =>
        hends (List.any_eq_true.mpr ⟨slot, hslot, by simpa using hend⟩)
      refine ⟨?_, fun hstart => hneither (.inl hstart.symm), fun hgoal => hneither (.inr hgoal.symm)⟩
      rintro ⟨m, hm, hx, hy⟩
      cases hn.symm.trans hm
      omega
    have hcells := (Edit.Keeps.forM fun cell _ => spares_insertCell cell : (List.forM (cells width height) insertCell).Keeps
      (Spares width height spec.diagonal g)) g (.refl (by rw [hgrid]; rfl))
    split at h
    · cases h
    · rename_i g₁ hlaid
      rw [Edit.after_ok hlaid] at hcells
      have hdropped := (hcells.dropNodes hspared).withGrid { spec with width, height } rfl
      have hwired := (completing_spares width height spec.diagonal g).allEdges _ hdropped
      rwa [Edit.after_ok h] at hwired

/-! ## Sides and corners -/

/-- Along a side, an edge is one of those that were there, or nothing is among its data. -/
def Sided (g : Graph) (c : Contact) (e : Edge) : Prop := c = .orthogonal → e ∈ g.edgeList ∨ e.data = []

theorem completable_sided (g : Graph) (d : Diagonal) : Completable (Sided g) d where
  straight _ _ _ _ := .inr rfl
  across _ _ _ hside := by cases hside
  reweighed _ _ hside := by cases hside

theorem weighed_ne_nil (d : Diagonal) (data : Bag) : weighed d data ≠ [] := by
  intro hnone
  have hthere : (weighed d data).get? "forbidden" = some (.bool (d.value < 0.0)) := by
    rw [weighed, Bag.get?_set, if_pos rfl]
  rw [hnone] at hthere
  cases hthere

/-- What an edge is like behind a new size: across a corner the cost of diagonals is set in its data, along a side it is
as it was. -/
def rewired (d : Diagonal) (g : Graph) (e : Edge) : Edge :=
  if g.contact? e.source e.target = some .diagonal then reweighed d e else e

theorem rewired_of_spared (hg : g.Arena) (hlattice : Lattice (Sided g) spec g') (hweighed : Weighed d g') {p : Nat}
    {e e' : Edge} (hbegan : g.Began p e) (he' : g'.edgeAt? p = some e') (hspared : Spared d e e') : e' = rewired d g' e := by
  obtain ⟨_, hsource, htarget⟩ := hspared.address
  obtain ⟨c, hcontact, hside⟩ := hlattice.wired.fits he'
  rw [hsource, htarget] at hcontact
  rw [rewired, hcontact]
  cases c with
  | diagonal =>
      rw [if_pos rfl]
      rcases hspared with rfl | rfl
      · rw [reweighed, hweighed he' hcontact]
      · rfl
  | orthogonal =>
      rw [if_neg (by decide)]
      rcases hspared with rfl | rfl
      · rfl
      · rcases hside rfl with hmem | hnone
        · obtain ⟨p', hp'⟩ := mem_edgeList.mp hmem
          have hid := (hg.number hp').symm.trans (hlattice.wired.arena.number he')
          obtain rfl : p' = p := by
            rw [EdgeId.mk.injEq] at hid
            omega
          rcases hbegan with hold | ⟨hplace, _⟩
          · exact Option.some.inj (hp'.symm.trans hold)
          · simp [edgeAt?, Array.getElem?_eq_none hplace] at hp'
        · exact absurd hnone (weighed_ne_nil d e.data)

/-! ## New sizes of any grid -/

/-- What a new size leaves behind. -/
structure Resized (width height : Nat) (d : Diagonal) (g g' : Graph) : Prop where
  start : g'.start = g.start
  goal : g'.goal = g.goal
  kept : ∀ n ∈ g.nodeList, n.x < width → n.y < height → n ∈ g'.nodeList
  new : ∀ n ∈ g'.nodeList, n ∈ g.nodeList ∨ (∀ m ∈ g.nodeList, m.slot ≠ n.slot) ∧ n.data = [] ∧ n.style = []
  edge : ∀ e ∈ g.edgeList, g.LiesWithin width height e.source → g.LiesWithin width height e.target →
    rewired d g' e ∈ g'.edgeList
  laid : ∀ e' ∈ g'.edgeList,
    (∃ e ∈ g.edgeList, g.LiesWithin width height e.source ∧ g.LiesWithin width height e.target ∧ e' = rewired d g' e) ∨
    (∀ e ∈ g.edgeList, e.id ≠ e'.id) ∧ e' = rewired d g' (bare e'.id e'.source e'.target)

/-- A cell that is still there lies within the new size. -/
theorem Spares.liesWithin (h : Spares width height d g g') (hlattice : Lattice Fit spec g') (hwidth : spec.width = width)
    (hheight : spec.height = height) {slot : Nat} (hlive : g.Live slot) (hlive' : g'.Live slot) :
    g.LiesWithin width height slot := by
  obtain ⟨n, hn⟩ := live_iff.mp hlive
  obtain ⟨m, hm⟩ := live_iff.mp hlive'
  have hinside := hlattice.inside (placeOf?_of_node? hm)
  rw [hwidth, hheight] at hinside
  rcases h.laid hm with hold | ⟨hplace, _⟩
  · exact ⟨m, hold, hinside⟩
  · simp [node?, Array.getElem?_eq_none hplace] at hn

theorem Spares.resized (hg : g.Arena) (h : Spares width height d g g') (hlattice : Lattice (Sided g) spec g')
    (hwidth : spec.width = width) (hheight : spec.height = height) (hweighed : Weighed d g') :
    Resized width height d g g' where
  start := h.start
  goal := h.goal
  kept n hn hx hy := by
    obtain ⟨s, hs⟩ := mem_nodeList.mp hn
    exact mem_nodeList.mpr ⟨s, h.cell hs hx hy⟩
  new n hn := by
    obtain ⟨s, hs⟩ := mem_nodeList.mp hn
    rcases h.laid hs with hold | ⟨hplace, hdata, hstyle⟩
    · exact .inl (mem_nodeList.mpr ⟨s, hold⟩)
    · refine .inr ⟨fun m hm hsame => ?_, hdata, hstyle⟩
      obtain ⟨s', hs'⟩ := mem_nodeList.mp hm
      rw [hg.slot hs', hlattice.wired.arena.slot hs] at hsame
      subst hsame
      simp [node?, Array.getElem?_eq_none hplace] at hs'
  edge e he hsource htarget := by
    obtain ⟨p, hp⟩ := mem_edgeList.mp he
    obtain ⟨e', he', hspared⟩ := h.edge hp hsource htarget
    obtain rfl := rewired_of_spared hg hlattice hweighed (.inl hp) he' hspared
    exact mem_edgeList.mpr ⟨p, he'⟩
  laid e' he' := by
    obtain ⟨p, hp⟩ := mem_edgeList.mp he'
    obtain ⟨e, hbegan, hspared⟩ := h.back hp
    have hrewired := rewired_of_spared hg hlattice hweighed hbegan hp hspared
    obtain ⟨hid, hsource, htarget⟩ := hspared.address
    rcases hbegan with hold | ⟨hplace, id, source, target, rfl⟩
    · obtain ⟨hlive, hlive'⟩ := hlattice.wired.arena.ends hp
      rw [hsource] at hlive
      rw [htarget] at hlive'
      exact .inl ⟨e, mem_edgeList.mpr ⟨p, hold⟩, h.liesWithin hlattice hwidth hheight (hg.ends hold).1 hlive,
        h.liesWithin hlattice hwidth hheight (hg.ends hold).2 hlive', hrewired⟩
    · refine .inr ⟨fun old hold hsame => ?_, ?_⟩
      · obtain ⟨p', hp'⟩ := mem_edgeList.mp hold
        rw [hg.number hp', hlattice.wired.arena.number hp, EdgeId.mk.injEq] at hsame
        obtain rfl : p' = p := by omega
        simp [edgeAt?, Array.getElem?_eq_none hplace] at hp'
      · rw [hid, hsource, htarget]
        exact hrewired

/-- **A new size is refused or spares what lies within it.** Take a grid of any size and with any cost of diagonals, and
whatever is done for its upkeep. A new size is refused just where the start or the goal lies outside, and nothing is
changed then. Otherwise it is taken: start and goal stay; the cells within the new size stay as they are, in their slots
and with all that is in their bags, and all others are new, with empty bags; each edge between two cells that stay is as
it was, but across corners the cost of diagonals is set in its data; and all other edges are new, may be walked both
ways, and have nothing but this cost among their data. Where no cost was asked for that is not finite, it is a number,
and the edges across corners are forbidden just where it is negative. -/
theorem resize_spares (width height : Nat) (d : Diagonal) (ops : List Upkeep) (width' height' : Nat) :
    ∃ origin spec, ofGrid width height d = .ok origin ∧ (keepUp ops origin).grid = some spec ∧
      ((keepUp ops origin).DropsEnd width' height' →
        resize width' height' (keepUp ops origin) = .error .resizeDropsEnd (keepUp ops origin)) ∧
      (¬ (keepUp ops origin).DropsEnd width' height' →
        ∃ g, resize width' height' (keepUp ops origin) = .ok () g ∧
          Resized width' height' spec.diagonal (keepUp ops origin) g ∧
          ((∀ op ∈ ops, op.Allowed) → d.Finite → Priced spec.diagonal.value g)) := by
  obtain ⟨origin, hmade, hnew, _⟩ := lattice_ofGrid width height (completable_unchecked d)
  obtain ⟨spec, hlattice, hfinite⟩ := exists_lattice_keepUp ops hnew
  refine ⟨origin, spec, hmade, hlattice.grid, ?_, ?_⟩
  · intro hdrops
    rw [resize_eq hlattice.grid, if_pos (any_slotsBeyond.mpr hdrops)]
  · intro hkeeps
    have hsides : Lattice (Sided (keepUp ops origin)) spec (keepUp ops origin) :=
      hlattice.refit fun he _ _ _ => .inl (mem_edgeList.mpr ⟨_, he⟩)
    obtain ⟨g, hsized, hafter, hweighed⟩ := hsides.resize_of_kept width' height' (completable_sided _ _)
      fun hdrops => hkeeps (any_slotsBeyond.mp hdrops)
    have hspares := spares_of_resize hlattice.wired.arena hlattice.grid hsized
    exact ⟨g, hsized, hspares.resized hlattice.wired.arena hafter rfl rfl hweighed, fun hops hd =>
      hweighed.priced (hfinite hops hd)⟩

/-- A grid of three by two cells, whose diagonals are closed, that loses a column and gets a row. -/
theorem resize_spares_sample :
    ∃ origin spec g, ofGrid 3 2 .euclidean = .ok origin ∧ (keepUp [.setDiagonal .disabled] origin).grid = some spec ∧
      resize 2 3 (keepUp [.setDiagonal .disabled] origin) = .ok () g ∧
      Resized 2 3 spec.diagonal (keepUp [.setDiagonal .disabled] origin) g ∧ Priced spec.diagonal.value g := by
  have hops : ∀ op ∈ [Upkeep.setDiagonal .disabled], op.Allowed := by
    intro op hop
    rw [List.mem_singleton.mp hop]
    exact ⟨by decide, by decide⟩
  obtain ⟨origin, spec, hmade, hgrid, _, htaken⟩ :=
    resize_spares 3 2 .euclidean [.setDiagonal .disabled] 2 3
  -- There is neither a start nor a goal yet.
  obtain ⟨_, hmade', hnew, _, hstart, hgoal, _⟩ := lattice_ofGrid 3 2 (completable_unchecked .euclidean)
  obtain rfl := Except.ok.inj (hmade.symm.trans hmade')
  obtain ⟨g', hset, hcells, _⟩ := hnew.setDiagonal (completable_unchecked .disabled)
  have hrun : keepUp [.setDiagonal .disabled] origin = g' := Edit.after_ok hset
  have hnone : g'.start = none ∧ g'.goal = none := ⟨hcells.start.trans hstart, hcells.goal.trans hgoal⟩
  obtain ⟨g, hsized, hresized, hpriced⟩ := htaken (by
    rintro ⟨n, _, _, hend⟩
    rw [hrun, hnone.1, hnone.2] at hend
    rcases hend with hend | hend <;> cases hend)
  exact ⟨origin, spec, g, hmade, hgrid, hsized, hresized, hpriced hops ⟨by decide, by decide⟩⟩

end SearchLab.Graph
