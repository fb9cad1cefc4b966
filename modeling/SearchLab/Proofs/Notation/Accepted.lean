import SearchLab.Notation.Reader
import SearchLab.Proofs.Graph.Operation
import SearchLab.Proofs.Notation.GridReader
import SearchLab.Proofs.Notation.Tidy

/-!
# What reading leads to

Whatever lines a document has, the reader makes its graph by a few edits. A free-form graph comes of the empty one by
mutations. A grid stays a lattice with its cells and edges where those of a new grid of its size are: lines change what
they hold and turn edges around, but add and move none. And the data of both are tidy.

* `FreeForm.accepted_of_read` — free-form graphs;
* `Grid.standing_of_read` — grids.
-/

namespace SearchLab.Notation

open SearchLab.Graph

namespace FreeForm

/-- Mutations of the empty graph lead to a graph, and its data are tidy. -/
structure Accepted (g : Graph) : Prop where
  mutated : Mutated Graph.empty g
  nodes : ∀ {s n}, g.node? s = some n → Tidy n.data
  edges : ∀ {p e}, g.edgeAt? p = some e → Tidy e.data

namespace Accepted

variable {g : Graph}

theorem empty : Accepted Graph.empty where
  mutated := ⟨Arena.empty none, .refl⟩
  nodes := by simp [Graph.empty, node?]
  edges := by simp [Graph.empty, edgeAt?]

/-- Neither the ends nor what is drawn have to do with data. -/
theorem of_same (h : Accepted g) {g' : Graph} (hmutation : Mutation g g') (hnodes : g'.nodes = g.nodes)
    (hedges : g'.edges = g.edges) : Accepted g' where
  mutated := h.mutated.step hmutation
  nodes hn := h.nodes (by rwa [node?, ← hnodes])
  edges he := h.edges (by rwa [edgeAt?, ← hedges])

theorem modifyNode (h : Accepted g) (slot : Nat) {f : Node → Node} (hf : SameNode f)
    (hdata : ∀ n, Tidy n.data → Tidy (f n).data) : Accepted (g.modifyNode slot f) where
  mutated := h.mutated.modifyNode slot hf
  nodes hn := by
    rw [node?_modifyNode] at hn
    split at hn
    · obtain ⟨m, hm, rfl⟩ := Option.map_eq_some_iff.mp hn
      exact hdata m (h.nodes hm)
    · exact h.nodes hn
  edges := h.edges

theorem modifyEdge (h : Accepted g) (id : EdgeId) {f : Edge → Edge} (hf : SameEdge f)
    (hdata : ∀ e, Tidy e.data → Tidy (f e).data) : Accepted (g.modifyEdge id f) where
  mutated := h.mutated.modifyEdge id hf
  nodes hn := h.nodes (by simpa [Graph.modifyEdge, redraw, node?] using hn)
  edges {p e} he := by
    have hchanged : (g.modifyEdge id f).edgeAt? p = _ := edgeAt?_changeEdge g id f p
    rw [hchanged] at he
    split at he
    · obtain ⟨old, hold, rfl⟩ := Option.map_eq_some_iff.mp he
      exact hdata old (h.edges hold)
    · exact h.edges he

theorem withNode (h : Accepted g) {id : String} {data : Bag} (hdata : Tidy data) (hnew : g.slot? id = none) :
    Accepted (g.withNode id 0 0 data) where
  mutated := h.mutated.step (.addNode g 0 0 data hnew)
  nodes hn := by
    rw [node?_withNode] at hn
    split at hn
    · cases hn
      exact hdata
    · exact h.nodes hn
  edges := h.edges

theorem withEdge (h : Accepted g) {source target : Nat} (bidirectional : Bool) {data : Bag} (hdata : Tidy data)
    (hsource : g.Live source) (htarget : g.Live target) :
    Accepted (g.withEdge source target bidirectional data).restructured where
  mutated := h.mutated.step (.addEdge g bidirectional data hsource htarget)
  nodes := h.nodes
  edges {p e} he := by
    have hpushed : (g.withEdge source target bidirectional data).restructured.edgeAt? p = _ :=
      edgeAt?_withEdge g source target bidirectional data p
    rw [hpushed] at he
    split at he
    · cases he
      exact hdata
    · exact h.edges he

end Accepted

/-! ## One statement -/

theorem keeps_accepted_addNode (id : String) {data : Bag} (hdata : Tidy data) :
    (addNode id data).Keeps Accepted := by
  intro g hg
  rcases after_addNode g id data with hafter | ⟨hnew, hafter⟩
  · rwa [hafter]
  · rw [hafter]
    exact hg.withNode hdata hnew

theorem keeps_accepted_addEdge (source target : Nat) (bidirectional : Bool) {data : Bag} (hdata : Tidy data) :
    (addEdge source target bidirectional data).Keeps Accepted := by
  intro g hg
  rcases after_addEdge g source target bidirectional data with hafter | ⟨hsource, htarget, hafter⟩
  · rwa [hafter]
  · rw [hafter]
    exact hg.withEdge bidirectional hdata hsource htarget

theorem keeps_accepted_setStart (slot : Option Nat) : (setStart slot).Keeps Accepted := by
  intro g hg
  rcases after_setStart g slot with hafter | ⟨hlive, hafter⟩
  · rwa [hafter]
  · rw [hafter]
    exact hg.of_same (.setStart g slot hlive) rfl rfl

theorem keeps_accepted_setGoal (slot : Option Nat) : (setGoal slot).Keeps Accepted := by
  intro g hg
  rcases after_setGoal g slot with hafter | ⟨hlive, hafter⟩
  · rwa [hafter]
  · rw [hafter]
    exact hg.of_same (.setGoal g slot hlive) rfl rfl

/-- Of a merge that is refused, what was merged before stays. -/
theorem keeps_accepted_mergeInto (slot : Nat) {data : Bag} (hdata : Tidy data) (style : Bag) :
    (mergeInto slot data style).Keeps Accepted := by
  intro g hg
  cases hnode : g.node? slot with
  | none =>
      have hredrawn := hg.of_same (.settings g true g.outcome g.defaultBidirectional g.physicsEnabled) rfl rfl
      simpa [Edit.after, mergeInto, hnode, redraw] using hredrawn
  | some n =>
      have hmerged := keeps_mergeWith hdata n.data (hg.nodes hnode)
      have hset : ∀ {f : Node → Node}, SameNode f → (∀ m, (f m).data = (Bag.mergeWith data).after n.data) →
          Accepted (g.modifyNode slot f) := fun hf hto =>
        hg.modifyNode slot hf fun m _ => (hto m).symm ▸ hmerged
      unfold Edit.after at hset ⊢
      unfold mergeInto
      simp only [hnode]
      cases hfirst : Bag.mergeWith data n.data with
      | error e merged => exact hset (fun _ => ⟨rfl, rfl, rfl, rfl⟩) fun _ => by rw [hfirst]
      | ok u merged =>
          dsimp only
          cases hsecond : Bag.mergeWith style n.style with
          | error e merged' => exact hset (fun _ => ⟨rfl, rfl, rfl, rfl⟩) fun _ => by rw [hfirst]
          | ok u merged' => exact hset (fun _ => ⟨rfl, rfl, rfl, rfl⟩) fun _ => by rw [hfirst]

/-- A statement with tidy data keeps what reading leads to. -/
theorem keeps_accepted_apply {s : Statement} (hs : Tidy s.data) : (apply s).Keeps Accepted := by
  unfold apply
  split
  · refine .bind (.check _) fun arg => .bind_get fun g _ => ?_
    split
    · exact keeps_accepted_mergeInto _ hs s.style
    · exact .bind (keeps_accepted_addNode arg.value hs) fun slot =>
        .modify fun g hg => hg.modifyNode slot (fun _ => ⟨rfl, rfl, rfl, rfl⟩) fun _ htidy => htidy
  · refine .bind (.check _) fun args => .bind (.check _) fun source => .bind (.check _) fun target => ?_
    exact .bind (keeps_accepted_addEdge source target s.isBidirectional hs) fun id =>
      .modify fun g hg => hg.modifyEdge id (fun _ => ⟨rfl, rfl, rfl⟩) fun _ htidy => htidy
  · exact .bind (.check _) fun arg => .bind (.check _) fun slot => keeps_accepted_setStart _
  · exact .bind (.check _) fun arg => .bind (.check _) fun slot => keeps_accepted_setGoal _
  · exact .pure _

/-- **A free-form graph that was read** comes of the empty one by mutations, and its data are tidy. -/
theorem accepted_of_read {lines : List Line} {g : Graph} (h : read lines = .ok g) : Accepted g := by
  have hkeeps : (lines.forM applyLine).Keeps Accepted := by
    refine .forM fun line _ => .bind_check fun g s hg hs => ?_
    cases s with
    | none => exact hg
    | some s => exact keeps_accepted_apply (tidy_of_ofLine? hs) g hg
  have hafter := hkeeps Graph.empty .empty
  unfold read at h
  split at h
  · rename_i u g' hread
    cases h
    rwa [Edit.after_ok hread] at hafter
  · cases h

end FreeForm

namespace Grid

/-! ## Grids -/

/-- One graph has its cells where another one has them, and edges where the other one has edges. -/
structure Stays (g g' : Graph) : Prop where
  places : ∀ s, g'.placeOf? s = g.placeOf? s
  kept : ∀ {p a b}, JoinedAt g p a b → JoinedAt g' p a b

namespace Stays

variable {g g' g'' : Graph}

theorem refl (g : Graph) : Stays g g := ⟨fun _ => rfl, id⟩

theorem trans (h : Stays g g') (h' : Stays g' g'') : Stays g g'' where
  places s := (h'.places s).trans (h.places s)
  kept hj := h'.kept (h.kept hj)

/-- Neither the ends, the size nor what is drawn have to do with the cells and the edges. -/
theorem of_same (hnodes : g'.nodes = g.nodes) (hedges : g'.edges = g.edges) : Stays g g' where
  places s := by rw [placeOf?, placeOf?, node?, node?, hnodes]
  kept := by
    rintro p a b ⟨e, he, hjoins⟩
    exact ⟨e, by rwa [edgeAt?, hedges], hjoins⟩

theorem modifyNode (g : Graph) (slot : Nat) {f : Node → Node} (hf : SameNode f) : Stays g (g.modifyNode slot f) :=
  ⟨placeOf?_modifyNode slot hf, id⟩

/-- Edges may be changed as long as they join what they joined. -/
theorem updateEdge (g : Graph) (id : EdgeId) {f : Edge → Edge} (hf : ∀ {e a b}, e.Joins a b → (f e).Joins a b) :
    Stays g (g.updateEdge id fun e => some (f e)) where
  places := (SameCells.updateEdge g id _).placeOf?
  kept := by
    rintro p a b ⟨e, he, hjoins⟩
    unfold JoinedAt
    rw [edgeAt?_changeEdge, he]
    split
    · exact ⟨f e, rfl, hf hjoins⟩
    · exact ⟨e, rfl, hjoins⟩

end Stays

/-- What an edge of a grid is like that was read: its data are tidy, and where it leads across a corner they begin with
the cost of diagonals. -/
structure Laid (c : Contact) (e : Edge) : Prop where
  tidy : Tidy e.data
  front : c = .diagonal → ["w", "forbidden"] <+: e.data.keys

theorem tidy_weighed (d : Diagonal) {data : Bag} (h : Tidy data) : Tidy (weighed d data) := by
  refine (h.set ⟨fun hkey => absurd hkey (by decide : "w" ≠ "style"), ?_⟩).setBool "forbidden" _
  intro n hn
  unfold Json.ofFloat at hn
  split at hn
  · cases hn
  · rename_i hfinite
    cases hn
    rw [Bool.or_eq_true, not_or] at hfinite
    exact Bool.eq_false_iff.mpr hfinite.2

/-- Completing the edges of a grid leaves them as reading wants them. -/
theorem completable_laid (d : Diagonal) : Completable Laid d where
  straight _ _ _ := ⟨Tidy.nil, by simp⟩
  across _ _ _ := ⟨tidy_weighed d Tidy.nil, fun _ => List.prefix_refl _⟩
  reweighed e h := by
    refine ⟨tidy_weighed d h.tidy, fun hc => ?_⟩
    have hfront := h.front hc
    have hweight : "w" ∈ e.data.keys := hfront.subset (by simp)
    have hforbidden : "forbidden" ∈ e.data.keys := hfront.subset (by simp)
    dsimp only
    rwa [weighed, Bag.keys_set, Bag.keys_set, if_pos hweight, if_pos hforbidden]

/-- Members that are set stand behind those that were there. -/
theorem keys_setAll (bag news : Bag) : bag.keys <+: (setAll bag news).keys := by
  induction news generalizing bag with
  | nil => exact List.prefix_refl _
  | cons m rest ih =>
      refine List.IsPrefix.trans ?_ (ih _)
      rw [Bag.keys_set]
      split
      · exact List.prefix_refl _
      · exact List.prefix_append _ _

/-- Setting data and style in an edge leaves it as reading wants it. -/
theorem Laid.setIn {c : Contact} {e : Edge} (h : Laid c e) {s : Statement} (hs : Tidy s.data) :
    Laid c (setIn s e) where
  tidy := h.tidy.setAll hs
  front hc := (h.front hc).trans (keys_setAll e.data s.data)

/-- A grid of a size as reading leads to it, where `new` is the new grid that reading starts with. -/
structure Standing (width height : Nat) (new g : Graph) : Prop where
  lattice : ∃ d, Lattice Laid ⟨width, height, d⟩ g ∧ d.value.isNaN = false
  nodes : ∀ {s n}, g.node? s = some n → Tidy n.data
  stays : Stays new g

section Steps

variable {width height : Nat} {new g : Graph}

/-- A mutation that changes neither nodes nor edges. -/
theorem Standing.of_same (h : Standing width height new g) {g' : Graph} (hmutation : Mutation g g')
    (hgrid : g'.grid = g.grid) (hnodes : g'.nodes = g.nodes) (hedges : g'.edges = g.edges) :
    Standing width height new g' := by
  obtain ⟨d, hlattice, hd⟩ := h.lattice
  refine ⟨⟨d, hlattice.of_same_edges hmutation hgrid hnodes hedges, hd⟩, ?_, h.stays.trans (.of_same hnodes hedges)⟩
  intro s n hn
  exact h.nodes (by rwa [node?, ← hnodes])

theorem Standing.modifyNode (h : Standing width height new g) (slot : Nat) {f : Node → Node} (hf : SameNode f)
    (hdata : ∀ n, Tidy n.data → Tidy (f n).data) : Standing width height new (g.modifyNode slot f) := by
  obtain ⟨d, hlattice, hd⟩ := h.lattice
  refine ⟨⟨d, hlattice.modifyNode slot hf, hd⟩, ?_, h.stays.trans (.modifyNode g slot hf)⟩
  intro s n hn
  rw [node?_modifyNode] at hn
  split at hn
  · obtain ⟨m, hm, rfl⟩ := Option.map_eq_some_iff.mp hn
    exact hdata m (h.nodes hm)
  · exact h.nodes hn

/-- Opening or blocking cells. -/
theorem keeps_standing_applyRows (headerLine : Nat) (rows : List Line) :
    (applyRows headerLine width height rows).Keeps (Standing width height new) := by
  have hcell : ∀ x y isOpen, (setCell x y isOpen).Keeps (Standing width height new) := fun x y isOpen =>
    .bind (.check _) fun slot => .modify fun g hg =>
      hg.modifyNode slot (fun _ => ⟨rfl, rfl, rfl, rfl⟩) fun _ htidy => htidy.setBool _ _
  unfold applyRows
  split
  · exact .check _
  · refine .forM fun entry _ => ?_
    exact .bind (.check _) fun values => .forM fun value _ => hcell value.2 entry.2 value.1

theorem Standing.setNode (h : Standing width height new g) (slot : Nat) {data : Bag} (hdata : Tidy data)
    (style : Bag) : Standing width height new (setNode slot data style g) := by
  refine h.modifyNode slot (fun _ => ⟨rfl, rfl, rfl, rfl⟩) fun n htidy => ?_
  dsimp only
  split
  · rename_i value hvalue _
    exact hdata.set (htidy.member hvalue)
  · exact hdata

theorem keeps_standing_setDiagonal {d : Diagonal} (hd : d.value.isNaN = false) :
    (Graph.setDiagonal d).Keeps (Standing width height new) := by
  intro g hg
  obtain ⟨d', hlattice, -⟩ := hg.lattice
  obtain ⟨g', hset, hcells, hlattice', -, hkept⟩ := hlattice.setDiagonal (completable_laid d)
  rw [Edit.after_ok hset]
  refine ⟨⟨d, hlattice', hd⟩, ?_, hg.stays.trans ⟨hcells.placeOf?, hkept⟩⟩
  intro s n hn
  rw [hcells.node?] at hn
  exact hg.nodes hn

theorem keeps_standing_reorientEdge (id : EdgeId) : (Graph.reorientEdge id).Keeps (Standing width height new) := by
  intro g hg
  obtain ⟨d, hlattice, hd⟩ := hg.lattice
  rcases after_reorientEdge g id with hafter | hafter
  · rwa [hafter]
  · rw [hafter]
    have hcells : SameCells g (g.updateEdge id fun e => some (turned e)).restructured := (SameCells.refl g).turnEdge id
    have hturned : Stays g (g.updateEdge id fun e => some (turned e)) := .updateEdge g id joins_turned.mpr
    refine ⟨⟨d, hlattice.turnEdge id fun h => ⟨h.tidy, h.front⟩, hd⟩, ?_, hg.stays.trans (hturned.trans ?_)⟩
    · intro s n hn
      rw [hcells.node?] at hn
      exact hg.nodes hn
    · exact .of_same rfl rfl

theorem Standing.modifyEdge (h : Standing width height new g) (id : EdgeId) {s : Statement} (hs : Tidy s.data) :
    Standing width height new (g.modifyEdge id (Grid.setIn s)) := by
  obtain ⟨d, hlattice, hd⟩ := h.lattice
  have hchanged : Stays g (g.updateEdge id fun e => some (Grid.setIn s e)) := .updateEdge g id fun hjoins => hjoins
  refine ⟨⟨d, hlattice.modifyEdge id (fun _ => ⟨rfl, rfl, rfl⟩) fun hfit => hfit.setIn hs, hd⟩, ?_,
    h.stays.trans (hchanged.trans (.of_same rfl rfl))⟩
  intro slot n hn
  rw [((SameCells.refl g).modifyEdge id _).node?] at hn
  exact h.nodes hn

theorem keeps_standing_setEdge {s : Statement} (hs : Tidy s.data) (column a b : Nat) :
    (setEdge s column a b).Keeps (Standing width height new) := by
  have hset : ∀ id : EdgeId, (modify fun g => g.modifyEdge id (Grid.setIn s) : Edit Graph Unit).Keeps
      (Standing width height new) := fun id => .modify fun g hg => hg.modifyEdge id hs
  unfold setEdge
  refine .bind (.modify fun g hg => hg.of_same (.reindex g) rfl rfl rfl) fun _ => .bind_get fun g _ => ?_
  split
  · exact .check _
  · dsimp only
    split
    · exact .bind (keeps_standing_reorientEdge _) fun _ => hset _
    · exact hset _

/-- No cost of diagonals that a text leads to is no number. -/
theorem isNaN_of_ofText? {text : String} {d : Diagonal} (h : Diagonal.ofText? text = some d) :
    d.value.isNaN = false := by
  unfold Diagonal.ofText? at h
  dsimp only at h
  split at h
  · rename_i m hfound
    cases h
    have hmem := List.mem_of_find?_eq_some hfound
    clear hfound
    revert m
    decide
  · split at h
    · split at h
      · cases h
      · rename_i v _ hnan
        cases h
        rw [Diagonal.value_ofValue]
        exact Bool.eq_false_iff.mpr hnan
    · cases h

/-- A statement with tidy data keeps what reading leads to. -/
theorem keeps_standing_apply {s : Statement} (hs : Tidy s.data) : (apply s).Keeps (Standing width height new) := by
  unfold apply
  split
  · exact .bind (.check _) fun args => .bind (.check _) fun slot => .modify fun g hg => hg.setNode slot hs s.style
  · refine .bind (.check _) fun arg => ?_
    split
    · rename_i d hd
      exact keeps_standing_setDiagonal (isNaN_of_ofText? hd)
    · exact .check _
  · exact .bind (.check _) fun args => .bind (.check _) fun source => .bind (.check _) fun target =>
      keeps_standing_setEdge hs _ source target
  · refine .bind (.check _) fun args => .bind (.check _) fun slot => ?_
    intro g hg
    rcases after_setStart g (some slot) with hafter | ⟨hlive, hafter⟩
    · rwa [hafter]
    · rw [hafter]
      exact hg.of_same (.setStart g (some slot) hlive) rfl rfl rfl
  · refine .bind (.check _) fun args => .bind (.check _) fun slot => ?_
    intro g hg
    rcases after_setGoal g (some slot) with hafter | ⟨hlive, hafter⟩
    · rwa [hafter]
    · rw [hafter]
      exact hg.of_same (.setGoal g (some slot) hlive) rfl rfl rfl
  · exact .pure _

end Steps

/-- **A grid that was read** is a lattice with its cells and edges where those of a new grid of its size are, diagonals
cost a number, and all data are tidy. -/
theorem standing_of_read {headerLine width height : Nat} {lines : List Line} {g : Graph}
    (h : read headerLine width height lines = .ok g) :
    ∃ new, ofGrid width height .disabled = .ok new ∧ Lattice Laid ⟨width, height, .disabled⟩ new ∧
      Standing width height new g := by
  obtain ⟨new, hnew, hlattice, hclear, -⟩ := lattice_ofGrid width height (completable_laid .disabled)
  have hstart : Standing width height new new := by
    refine ⟨⟨.disabled, hlattice, by decide⟩, fun hn => ?_, .refl new⟩
    rw [(hclear hn).1]
    exact Tidy.nil
  have hkeeps : (applyRows headerLine width height lines >>= fun _ => (lines.drop height).forM applyLine).Keeps
      (Standing width height new) := by
    refine .bind (keeps_standing_applyRows headerLine lines) fun _ => .forM fun line _ => .bind_check fun g s hg hs => ?_
    cases s with
    | none => exact hg
    | some s => exact keeps_standing_apply (tidy_of_ofLine? hs) g hg
  have hafter := hkeeps new hstart
  refine ⟨new, hnew, hlattice, ?_⟩
  unfold read at h
  rw [hnew] at h
  dsimp only at h
  split at h
  · rename_i u g' hread
    cases h
    rwa [Edit.after_ok hread] at hafter
  · cases h

/-- The sizes in a header are sizes. -/
theorem isSize_of_ofLine {line : Line} {width height : Nat} (h : Header.ofLine line = .ok (.grid width height)) :
    IsSize width ∧ IsSize height := by
  have hsize : ∀ {cs : List Char} {n : Nat}, dimension? cs = some n → IsSize n := by
    intro cs n hn
    unfold dimension? at hn
    split at hn
    · cases hn
    · rename_i hzero
      refine ⟨?_, ?_⟩
      · rcases Nat.eq_zero_or_pos n with rfl | hpos
        · exact absurd hn hzero
        · exact hpos
      · exact Decimal.le_of_natural? hn
  unfold Header.ofLine at h
  dsimp only at h
  split at h
  · cases h
  split at h
  · split at h
    · split at h
      · rename_i hwidth hheight
        cases h
        exact ⟨hsize hwidth, hsize hheight⟩
      · cases h
    · cases h
  · cases h

end Grid

/-- **What reading leads to** is a free-form graph or a grid of the sizes in its header. -/
theorem accepted_or_standing {text : String} {g : Graph} (h : read text = .ok g) :
    FreeForm.Accepted g ∨
      ∃ width height new, (IsSize width ∧ IsSize height) ∧ ofGrid width height .disabled = .ok new ∧
        Lattice Grid.Laid ⟨width, height, .disabled⟩ new ∧ Grid.Standing width height new g := by
  unfold read at h
  split at h
  · cases h
  split at h
  · cases h
  · exact .inl (FreeForm.accepted_of_read h)
  · rename_i width height hheader
    obtain ⟨new, hnew, horigin, hstanding⟩ := Grid.standing_of_read h
    exact .inr ⟨width, height, new, Grid.isSize_of_ofLine hheader, hnew, horigin, hstanding⟩

end SearchLab.Notation
