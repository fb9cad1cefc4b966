import SearchLab.Proofs.Game.PathCount

/-!
# Leaves of a tree-shaped game

In a game in which every position is reached in one way only, the nodes that a position is expanded to are new. So the
node that was a leaf of all trees above it makes room for as many leaves as it has moves, which is what the path counts
go up by.

* `Shaped.opens` — every node but the root stays where a move leads to;
* `leavesBelow_opened`, `leavesBelow_apart` — which leaves there are once a position is expanded;
* `path_counts_are_leaf_counts` — at any time a path count is the number of leaves.
-/

namespace SearchLab.Game

open Relation (ReflTransGen)

variable {π υ : Type}

namespace Tree

/-- A node has no moves: its position is not expanded, or it was expanded to none. -/
def IsLeaf (t : Tree π υ) (slot : Nat) : Prop :=
  ∃ e, t.entry? slot = some e ∧ (e.moves = none ∨ e.moves = some [])

open scoped Classical in
/-- The leaves that are a node or stand below it. -/
noncomputable def leavesBelow (t : Tree π υ) (slot : Nat) : Finset Nat :=
  {leaf ∈ Finset.range t.size | t.Above slot leaf ∧ t.IsLeaf leaf}

theorem mem_leavesBelow {t : Tree π υ} {slot leaf : Nat} : leaf ∈ t.leavesBelow slot ↔ t.Above slot leaf ∧ t.IsLeaf leaf := by
  simp only [leavesBelow, Finset.mem_filter, Finset.mem_range]
  exact and_iff_right_of_imp fun ⟨_, _, he, _⟩ => lt_size he

theorem card_leavesBelow_le (t : Tree π υ) (slot : Nat) : (t.leavesBelow slot).card ≤ t.size := by
  have hnodes : t.leavesBelow slot ⊆ Finset.range t.size := by
    intro leaf hleaf
    obtain ⟨_, e, he, _⟩ := mem_leavesBelow.mp hleaf
    exact Finset.mem_range.mpr (lt_size he)
  exact (Finset.card_le_card hnodes).trans_eq (Finset.card_range t.size)

/-- Below a leaf there is only the leaf itself. -/
theorem IsLeaf.above_iff {t : Tree π υ} {leaf slot : Nat} (h : t.IsLeaf leaf) : t.Above leaf slot ↔ slot = leaf := by
  constructor
  · intro habove
    rcases ReflTransGen.cases_head habove with rfl | ⟨_, ⟨e, he, m, hm, _⟩, _⟩
    · rfl
    · obtain ⟨e', he', hmoves⟩ := h
      cases he.symm.trans he'
      rcases hmoves with hmoves | hmoves <;> simp [hmoves] at hm
  · rintro rfl
    exact .refl

end Tree

variable [Position π υ]

/-- A game is shaped like a tree: moves to the same position are the same action at the same position, no move leads
back to the first position, and no action is left where the game ends. -/
structure Rules.TreeShaped (rules : Rules π) (G : Set π) : Prop where
  parent : ∀ {p q bs bs'}, p ∈ G → q ∈ G → rules.branches p = .ok bs → rules.branches q = .ok bs' →
    ∀ b ∈ bs, ∀ b' ∈ bs', Position.id b.2 = Position.id b'.2 → Position.id p = Position.id q ∧ b.1 = b'.1
  first : ∀ {p q bs}, rules.initial = .ok p → q ∈ G → rules.branches q = .ok bs →
    ∀ b ∈ bs, Position.id b.2 ≠ Position.id p
  ended : ∀ {p bs}, p ∈ G → Position.isTerminal p = true → rules.branches p = .ok bs → bs = []

/-- A game is shaped like a tree where each position but the first knows the move that leads to it. -/
theorem Rules.treeShaped_of_origin {rules : Rules π} {G : Set π} (origin : String → Option (String × Action))
    (hfirst : ∀ {p}, rules.initial = .ok p → origin (Position.id p) = none)
    (horigin : ∀ {p bs}, p ∈ G → rules.branches p = .ok bs →
      (∀ b ∈ bs, origin (Position.id b.2) = some (Position.id p, b.1)) ∧ (Position.isTerminal p = true → bs = [])) :
    rules.TreeShaped G where
  parent hp hq hbs hbs' b hb b' hb' hid := by
    have hsame := (horigin hp hbs).1 b hb
    rw [hid, (horigin hq hbs').1 b' hb', Option.some.injEq, Prod.mk.injEq] at hsame
    exact ⟨hsame.1.symm, hsame.2.symm⟩
  first hp hq hbs b hb hid := by
    have hsome := (horigin hq hbs).1 b hb
    rw [hid, hfirst hp] at hsome
    cases hsome
  ended hp hended hbs := (horigin hp hbs).2 hended

/-- No position lists an action twice. -/
def Rules.ListsOnce (rules : Rules π) (G : Set π) : Prop :=
  ∀ {p bs}, p ∈ G → rules.branches p = .ok bs → (bs.map Prod.fst).Nodup

namespace Tree

/-- A move that is kept leads to every node but the root. -/
def Shaped (t : Tree π υ) : Prop := ∀ {slot e}, t.entry? slot = some e → slot = t.root ∨ ∃ a, t.Onward a slot

section Unfolds

variable {rules : Rules π} {slot : Nat} {e : Entry π υ} {branches : List (Action × π)} {moves : List Move} {s t : Tree π υ}
  (h : Unfolds rules slot e branches moves s t)

include h

/-- Every node but the root stays where a move leads to. -/
theorem Shaped.unfolds (hs : s.Shaped) : t.Shaped := by
  intro child e' he'
  cases hold : s.entry? child with
  | none => exact .inr ⟨slot, h.onward_iff.mpr (.inr ⟨rfl, h.mem_of_joined hold he'⟩)⟩
  | some e₁ =>
      rcases hs hold with hroot | ⟨a, ha⟩
      · exact .inl (hroot.trans h.root.symm)
      · exact .inr ⟨a, h.onward_iff.mpr (.inl ha)⟩

/-! ## The new nodes -/

variable {G : Set π} (hshaped : rules.TreeShaped G) (hobeys : s.Obeys rules G)

include hshaped hobeys

/-- All nodes that the position is expanded to are new. -/
theorem Unfolds.entry_eq_none (hs : s.InStep) {p : π} (hp : rules.initial = .ok p)
    (hroot : ∃ e₀, s.entry? s.root = some e₀ ∧ Position.id e₀.position = Position.id p) (hled : s.Shaped) {child : Nat}
    (hchild : child ∈ moves.map Move.slot) : s.entry? child = none := by
  obtain ⟨m, hm, rfl⟩ := List.mem_map.mp hchild
  obtain ⟨b, hb, _, hid⟩ := exists_match (List.Forall₂.flip (R := flip Follows) h.follows) hm
  obtain ⟨e', he', hid'⟩ := (h.inStep.lookup _ _).mp (h.inStep.targets (h.own h.entry) rfl m hm)
  have hposition := hobeys.position h.entry
  by_contra hold
  obtain ⟨e₁, he₁⟩ := Option.ne_none_iff_exists'.mp hold
  have hsame : Position.id e₁.position = Position.id b.2 := by
    rw [← hid, ← hid']
    by_cases hown : m.slot = slot
    · obtain rfl := Option.some.inj ((hown ▸ he₁).symm.trans h.entry)
      obtain rfl := Option.some.inj ((h.own h.entry).symm.trans (hown ▸ he'))
      rfl
    · obtain rfl := Option.some.inj ((h.others hown he₁).symm.trans he')
      rfl
  rcases hled he₁ with hfirst | ⟨a, hlead⟩
  · obtain ⟨e₀, he₀, hid₀⟩ := hroot
    obtain rfl := Option.some.inj ((hfirst ▸ he₁).symm.trans he₀)
    exact hshaped.first hp hposition h.given b hb (hsame.symm.trans hid₀)
  · -- The other way to the node starts at a position that is expanded already.
    obtain ⟨e₂, he₂, m', hm', hslot⟩ := hlead
    cases hmoves : e₂.moves with
    | none => simp [hmoves] at hm'
    | some moves' =>
        have hm' : m' ∈ moves' := by simpa [hmoves] using hm'
        obtain ⟨bs, hbs, hfollows⟩ := hobeys.moves he₂ hmoves
        obtain ⟨b', hb', _, hid₂⟩ := exists_match (List.Forall₂.flip (R := flip Follows) hfollows) hm'
        obtain ⟨e₃, he₃, hid₃⟩ := (hs.lookup _ _).mp (hs.targets he₂ hmoves m' hm')
        rw [hslot, he₁, Option.some.injEq] at he₃
        have htwice : Position.id b'.2 = Position.id b.2 := by rw [← hid₂, ← hid₃, ← he₃, hsame]
        have hparent := (hshaped.parent (hobeys.position he₂) hposition hbs h.given b' hb' b hb htwice).1
        have hslots := (hs.slot?_id he₂).symm.trans (hparent ▸ hs.slot?_id h.entry)
        obtain rfl := Option.some.inj hslots
        cases he₂.symm.trans h.entry
        rw [h.closed] at hmoves
        cases hmoves

/-- The position is expanded to as many nodes as it has moves. -/
theorem Unfolds.nodup_slots (honce : rules.ListsOnce G) : (moves.map Move.slot).Nodup := by
  have hposition := hobeys.position h.entry
  have hinj : ∀ b ∈ branches, ∀ b' ∈ branches, Position.id b.2 = Position.id b'.2 → b = b' := by
    intro b hb b' hb' hid
    have haction := (hshaped.parent hposition hposition h.given h.given b hb b' hb' hid).2
    exact List.inj_on_of_nodup_map (honce hposition h.given) hb hb' haction
  have hids : (moves.map Move.id).Nodup := by
    rw [ids_of_follows h.follows]
    exact (List.Nodup.of_map _ (honce hposition h.given)).map_on hinj
  refine (List.Nodup.of_map _ hids).map_on fun m hm m' hm' hslot => ?_
  have htarget := h.inStep.targets (h.own h.entry) rfl
  obtain ⟨n, hn, hnid⟩ := (h.inStep.arena.lookup _ _).mp (htarget m hm)
  obtain ⟨n', hn', hnid'⟩ := (h.inStep.arena.lookup _ _).mp (htarget m' hm')
  rw [← hslot, hn, Option.some.injEq] at hn'
  exact List.inj_on_of_nodup_map hids hm hm' (by rw [← hnid, ← hnid', hn'])

omit hshaped hobeys

/-! ## The leaves -/

variable (hnew : ∀ child ∈ moves.map Move.slot, s.entry? child = none)

include hnew

/-- A new node has no moves yet. -/
theorem isLeaf_of_new {child : Nat} (hchild : child ∈ moves.map Move.slot) : t.IsLeaf child := by
  obtain ⟨e', he'⟩ := h.entry_of_mem hchild
  obtain ⟨_, _, rfl⟩ := h.joined (hnew child hchild) he'
  exact ⟨_, he', .inl rfl⟩

/-- Below a node stand those that stood there, and the new ones if the position that is expanded did. -/
theorem above_unfolds_iff {v leaf : Nat} :
    t.Above v leaf ↔ s.Above v leaf ∨ s.Above v slot ∧ leaf ∈ moves.map Move.slot := by
  constructor
  · intro habove
    induction habove with
    | refl => exact .inl .refl
    | @tail a b _ hstep ih =>
        rcases ih with habove | ⟨habove, hchild⟩
        · rcases h.onward_iff.mp hstep with hold | ⟨rfl, hchild⟩
          · exact .inl (habove.tail hold)
          · exact .inr ⟨habove, hchild⟩
        · -- Nothing stands below a new node.
          have hself := (isLeaf_of_new h hnew hchild).above_iff.mp (.single hstep)
          exact .inr ⟨habove, hself ▸ hchild⟩
  · have hkept : ∀ {b}, s.Above v b → t.Above v b := fun {b} =>
      ReflTransGen.mono (fun _ _ hab => h.onward_iff.mpr (.inl hab)) v b
    rintro (habove | ⟨habove, hchild⟩)
    · exact hkept habove
    · exact (hkept habove).tail (h.onward_iff.mpr (.inr ⟨rfl, hchild⟩))

theorem isLeaf_unfolds_iff {leaf : Nat} :
    t.IsLeaf leaf ↔ leaf ∈ moves.map Move.slot ∨ s.IsLeaf leaf ∧ (leaf = slot → moves = []) := by
  constructor
  · rintro ⟨e', he', hmoves⟩
    cases hold : s.entry? leaf with
    | none => exact .inl (h.mem_of_joined hold he')
    | some e₁ =>
        refine .inr ?_
        by_cases hslot : leaf = slot
        · subst hslot
          obtain rfl := Option.some.inj (h.entry.symm.trans hold)
          obtain rfl := Option.some.inj ((h.own h.entry).symm.trans he')
          exact ⟨⟨e, h.entry, .inl h.closed⟩, fun _ => by simpa using hmoves⟩
        · obtain rfl := Option.some.inj ((h.others hslot hold).symm.trans he')
          exact ⟨⟨e₁, hold, hmoves⟩, fun hsame => absurd hsame hslot⟩
  · rintro (hchild | ⟨⟨e₁, he₁, hmoves⟩, hempty⟩)
    · exact isLeaf_of_new h hnew hchild
    · by_cases hslot : leaf = slot
      · exact ⟨_, hslot ▸ h.own h.entry, .inr (by rw [hempty hslot])⟩
      · exact ⟨e₁, h.others hslot he₁, hmoves⟩

/-- **The position that is expanded makes room for its moves** among the leaves below each node above it. -/
theorem card_leavesBelow_of_above (hnodup : (moves.map Move.slot).Nodup) {v : Nat} (habove : s.Above v slot) :
    (t.leavesBelow v).card = (s.leavesBelow v).card + (moves.length - 1) := by
  have hmem : ∀ leaf, leaf ∈ t.leavesBelow v ↔
      leaf ∈ moves.map Move.slot ∨ leaf ∈ s.leavesBelow v ∧ (leaf = slot → moves = []) := by
    intro leaf
    have hapart : leaf ∈ moves.map Move.slot → ¬ s.IsLeaf leaf := by
      rintro hchild ⟨_, he₁, _⟩
      rw [hnew leaf hchild] at he₁
      cases he₁
    rw [mem_leavesBelow, mem_leavesBelow, above_unfolds_iff h hnew, isLeaf_unfolds_iff h hnew]
    tauto
  cases hmoves : moves with
  | nil =>
      have hsame : t.leavesBelow v = s.leavesBelow v := by
        ext leaf
        simp [hmem, hmoves]
      simp [hsame]
  | cons first rest =>
      have hleaf : slot ∈ s.leavesBelow v := mem_leavesBelow.mpr ⟨habove, e, h.entry, .inl h.closed⟩
      have hunion : t.leavesBelow v = (s.leavesBelow v).erase slot ∪ (moves.map Move.slot).toFinset := by
        ext leaf
        rw [hmem, Finset.mem_union, Finset.mem_erase, List.mem_toFinset, hmoves]
        simp only [reduceCtorEq, imp_false]
        tauto
      have hdisjoint : Disjoint ((s.leavesBelow v).erase slot) (moves.map Move.slot).toFinset := by
        rw [Finset.disjoint_right]
        intro leaf hchild hold
        obtain ⟨_, _, he₁, _⟩ := mem_leavesBelow.mp (Finset.mem_of_mem_erase hold)
        rw [hnew leaf (List.mem_toFinset.mp hchild)] at he₁
        cases he₁
      have hcard : 0 < (s.leavesBelow v).card := Finset.card_pos.mpr ⟨slot, hleaf⟩
      rw [hunion, Finset.card_union_of_disjoint hdisjoint, Finset.card_erase_of_mem hleaf,
        List.toFinset_card_of_nodup hnodup, List.length_map, hmoves, List.length_cons]
      omega

/-- Below all other nodes the leaves stay the same. -/
theorem leavesBelow_of_not_above (hs : s.InStep) {v : Nat} {e' : Entry π υ} (hv : s.entry? v = some e')
    (hfar : ¬ s.Above v slot) : t.leavesBelow v = s.leavesBelow v := by
  ext leaf
  rw [mem_leavesBelow, mem_leavesBelow, above_unfolds_iff h hnew, isLeaf_unfolds_iff h hnew]
  constructor
  · rintro ⟨habove | ⟨habove, _⟩, hleaf⟩
    · have hold : leaf ∉ moves.map Move.slot := by
        intro hchild
        obtain ⟨e₁, he₁⟩ := hs.entry_of_above hv habove
        rw [hnew leaf hchild] at he₁
        cases he₁
      exact ⟨habove, (hleaf.resolve_left hold).1⟩
    · exact absurd habove hfar
  · rintro ⟨habove, hleaf⟩
    exact ⟨.inl habove, .inr ⟨hleaf, fun hslot => absurd (hslot ▸ habove) hfar⟩⟩

/-- A new node is its only leaf. -/
theorem leavesBelow_of_new {child : Nat} (hchild : child ∈ moves.map Move.slot) : t.leavesBelow child = {child} := by
  have hleaf := isLeaf_of_new h hnew hchild
  ext leaf
  rw [mem_leavesBelow, hleaf.above_iff, Finset.mem_singleton]
  exact ⟨fun hboth => hboth.1, fun hsame => ⟨hsame, hsame ▸ hleaf⟩⟩

end Unfolds

/-! ## The counts -/

/-- At each node of the tree the path count is the number of leaves, as a word. -/
structure LeafCounted (rules : Rules π) (G : Set π) (p : π) (t : Tree π υ) : Prop where
  mirrors : t.Mirrors
  obeys : t.Obeys rules G
  shaped : t.Shaped
  root : ∃ e, t.entry? t.root = some e ∧ Position.id e.position = Position.id p
  counts : ∀ {slot e}, t.entry? slot = some e → t.pathCount slot = (t.leavesBelow slot).card.toUInt64

/-- The counts go on to be right when a position is expanded. -/
theorem LeafCounted.unfolds {rules : Rules π} {G : Set π} (hwithin : rules.Within G) (hshaped : rules.TreeShaped G)
    (honce : rules.ListsOnce G) {p : π} (hp : rules.initial = .ok p) {slot : Nat} {e : Entry π υ}
    {branches : List (Action × π)} {moves : List Move} {s t : Tree π υ} (hs : LeafCounted rules G p s)
    (h : Unfolds rules slot e branches moves s t) : LeafCounted rules G p t := by
  have hnew : ∀ child ∈ moves.map Move.slot, s.entry? child = none := fun child =>
    h.entry_eq_none hshaped hs.obeys hs.mirrors.toInStep hp hs.root hs.shaped
  have hnodup := h.nodup_slots hshaped hs.obeys honce
  obtain ⟨hraised, hfresh⟩ := pathCount_grow hs.mirrors h.entry h.grown
  have hgain : gain e.position moves.length = moves.length - 1 := by
    rw [gain]
    split
    · rename_i hended
      have hnone := hshaped.ended (hs.obeys.position h.entry) hended h.given
      have hlength := h.follows.length_eq
      simp [hnone] at hlength
      simp [← hlength]
    · rfl
  refine ⟨h.mirrors hs.mirrors, h.obeys hwithin hs.obeys, Shaped.unfolds h hs.shaped, ?_, ?_⟩
  · obtain ⟨e₀, he₀, hid⟩ := hs.root
    obtain ⟨e₁, he₁, hposition, _⟩ := (h.toOpens.grows h.entry h.closed).stays he₀
    exact ⟨e₁, h.root ▸ he₁, hposition ▸ hid⟩
  · intro v e' hv
    cases hold : s.entry? v with
    | none =>
        rw [hfresh hold hv, leavesBelow_of_new h hnew (h.mem_of_joined hold hv), Finset.card_singleton]
        rfl
    | some e₁ =>
        by_cases habove : s.Above v slot
        · rw [(hraised hold).1 habove, hs.counts hold, card_leavesBelow_of_above h hnew hnodup habove, hgain]
          exact (UInt64.ofNat_add _ _).symm
        · rw [(hraised hold).2 habove, hs.counts hold, leavesBelow_of_not_above h hnew hs.mirrors.toInStep hold habove]

theorem leafCounted_ofRoot {rules : Rules π} {G : Set π} {p : π} (hp : p ∈ G) : LeafCounted rules G p (ofRoot p) := by
  obtain ⟨_, hroot, hall⟩ := ofRoot_spec (υ := υ) p
  refine ⟨.ofRoot p, .ofRoot hp, fun he => .inl (pathCount_ofRoot he).2, ⟨_, hroot, rfl⟩, ?_⟩
  intro slot e he
  have hleaf : (ofRoot p : Tree π υ).IsLeaf slot := ⟨e, he, .inl (by rw [hall he])⟩
  have hself : (ofRoot p : Tree π υ).leavesBelow slot = {slot} := by
    ext leaf
    rw [mem_leavesBelow, hleaf.above_iff, Finset.mem_singleton]
    exact ⟨fun hboth => hboth.1, fun hsame => ⟨hsame, hsame ▸ hleaf⟩⟩
  rw [(pathCount_ofRoot he).1, hself, Finset.card_singleton]
  rfl

/-- The counts are right whatever positions of the game were expanded. -/
theorem Unfolded.leafCounted {rules : Rules π} {G : Set π} (hwithin : rules.Within G) (hshaped : rules.TreeShaped G)
    (honce : rules.ListsOnce G) {p : π} (hp : rules.initial = .ok p) {opened : List Opening} {t : Tree π υ}
    (h : Unfolded rules (ofRoot p) opened t) : LeafCounted rules G p t := by
  induction h with
  | start => exact leafCounted_ofRoot (hwithin.initial hp)
  | step _ hstep ih => exact ih.unfolds hwithin hshaped honce hp hstep

end Tree

namespace Engine

open SearchLab.Game.Tree (LeafCounted Unfolded)

/-- **Path counts are leaf counts in tree-shaped games.** Take a game in which no position is reached by two moves, the
first position is not reached again, no action is left where the game ends, and no position lists an action twice. An
engine of this game is asked to expand nodes, in any order, under any budgets, and with rules that may fail at any call.
At any time the path count of each node is the number of nodes at or below it that are not expanded or were expanded to
no moves; it is kept in a word, which is large enough as long as the nodes of the tree can be counted in one. -/
theorem path_counts_are_leaf_counts {rules : Rules π} {G : Set π} (hwithin : rules.Within G)
    (hshaped : rules.TreeShaped G) (honce : rules.ListsOnce G) {fresh : Engine π υ} (hfresh : ofRules rules = .ok fresh)
    {calls : List (Call π)} (hcalls : ∀ call ∈ calls, call.OnNodes rules) :
    let t := (runAll calls fresh).tree
    ∀ slot < t.size, t.pathCount slot = (t.leavesBelow slot).card.toUInt64 ∧
      (t.size < UInt64.size → (t.pathCount slot).toNat = (t.leavesBelow slot).card) := by
  intro t slot hslot
  obtain ⟨p, hp, hunfolded⟩ := unfolded_of_fresh hfresh hcalls
  have hcounted : LeafCounted rules G p t := hunfolded.leafCounted hwithin hshaped honce hp
  obtain ⟨e, he⟩ := Option.isSome_iff_exists.mp (Tree.entry?_isSome_iff.mpr hslot)
  have hword := hcounted.counts he
  refine ⟨hword, fun hsize => ?_⟩
  have hcard := Tree.card_leavesBelow_le t slot
  rw [hword]
  exact Nat.mod_eq_of_lt (Nat.lt_of_le_of_lt hcard hsize)

/-- A game of two moves, one of which can be met in two ways. -/
def fork : Table where
  initial := some "start"
  places :=
    let move (key : String) : Action := [("to", .text key)]
    [ ⟨"start", "start", some .max, false, 0.0, none, [move "left", move "right"]⟩,
      ⟨"left", "left", some .min, false, 0.0, none, [move "won", move "lost"]⟩,
      ⟨"right", "right", none, true, 0.0, none, []⟩,
      ⟨"won", "won", none, true, 1.0, none, []⟩,
      ⟨"lost", "lost", none, true, -1.0, none, []⟩ ]

/-- The move that leads to a position of the game. -/
def fork.origin (id : String) : Option (String × Action) :=
  if id = "left" ∨ id = "right" then some ("start", [("to", .text id)])
  else if id = "won" ∨ id = "lost" then some ("left", [("to", .text id)])
  else none

theorem fork_origin : ∀ p ∈ fork.places, ∃ bs, (fork.rules none).branches p = .ok bs ∧
    (∀ b ∈ bs, fork.origin b.2.id = some (p.id, b.1)) ∧ (p.isTerminal = true → bs = []) ∧ (bs.map Prod.fst).Nodup := by
  intro p hp
  simp only [fork, List.mem_cons, List.not_mem_nil, or_false] at hp
  rcases hp with rfl | rfl | rfl | rfl | rfl
  all_goals exact ⟨_, rfl, by simp [fork.origin], by simp, by simp⟩

theorem fork_treeShaped :
    (fork.rules none).TreeShaped {p | p ∈ fork.places} ∧ (fork.rules none).ListsOnce {p | p ∈ fork.places} := by
  constructor
  · refine Rules.treeShaped_of_origin fork.origin (fun hp => ?_) fun hp hbs => ?_
    · cases hp
      rfl
    · obtain ⟨bs', hbs', horigin, hended, _⟩ := fork_origin _ hp
      obtain rfl := Except.ok.inj (hbs'.symm.trans hbs)
      exact ⟨horigin, hended⟩
  · intro p bs hp hbs
    obtain ⟨bs', hbs', _, _, hnodup⟩ := fork_origin p hp
    obtain rfl := Except.ok.inj (hbs'.symm.trans hbs)
    exact hnodup

/-- Four calls, of which the second meets broken rules: three leaves are seen from the root. -/
theorem path_counts_are_leaf_counts_sample :
    let rules := fork.rules none
    let calls : List (Call Place) :=
      [.expandNode rules 0, .expandNode (fork.rules (some "out of order")) 1, .setBudget (.limited 1), .expandNode rules 1]
    ∃ fresh : Engine Place Float, ofRules rules = .ok fresh ∧
      let t := (runAll calls fresh).tree
      t.pathCount t.root = (t.leavesBelow t.root).card.toUInt64 := by
  intro rules calls
  obtain ⟨fresh, hfresh⟩ : ∃ fresh : Engine Place Float, ofRules rules = .ok fresh := ⟨_, rfl⟩
  have hcalls : ∀ call ∈ calls, call.OnNodes rules := by
    simp only [calls, List.mem_cons, List.not_mem_nil, or_false]
    rintro call (rfl | rfl | rfl | rfl)
    · exact .refl rules
    · exact fork.falters _
    · trivial
    · exact .refl rules
  have hroot : (runAll calls fresh).tree.root < (runAll calls fresh).tree.size := by
    obtain ⟨p, _, hunfolded⟩ := unfolded_of_fresh hfresh hcalls
    obtain ⟨hsame, hgrows⟩ := hunfolded.root_grows
    obtain ⟨e, he, _⟩ := hgrows.stays (Tree.ofRoot_spec p).2.1
    exact hsame ▸ Tree.lt_size he
  exact ⟨fresh, hfresh, (path_counts_are_leaf_counts (fork.within none) fork_treeShaped.1 fork_treeShaped.2 hfresh hcalls
    _ hroot).1⟩

/-- A game whose first position lists its only move twice. -/
def stutter : Table where
  initial := some "start"
  places :=
    let move : Action := [("to", .text "end")]
    [ ⟨"start", "start", some .max, false, 0.0, none, [move, move]⟩,
      ⟨"end", "end", none, true, 0.0, none, []⟩ ]

/-- The move that leads to a position of the game. -/
def stutter.origin (id : String) : Option (String × Action) :=
  if id = "end" then some ("start", [("to", .text "end")]) else none

theorem stutter_origin : ∀ p ∈ stutter.places, ∃ bs, (stutter.rules none).branches p = .ok bs ∧
    (∀ b ∈ bs, stutter.origin b.2.id = some (p.id, b.1)) ∧ (p.isTerminal = true → bs = []) := by
  intro p hp
  simp only [stutter, List.mem_cons, List.not_mem_nil, or_false] at hp
  rcases hp with rfl | rfl
  all_goals exact ⟨_, rfl, by simp [stutter.origin], by simp⟩

/-- A position that lists an action twice has two lines of play, with one leaf at their end. -/
theorem path_count_of_stutter :
    (stutter.rules none).TreeShaped {p | p ∈ stutter.places} ∧
      ∃ fresh : Engine Place Float, ofRules (stutter.rules none) = .ok fresh ∧
        let t := (runAll [.expandNode (stutter.rules none) fresh.tree.root] fresh).tree
        t.pathCount t.root = 2 ∧ (t.leavesBelow t.root).card ≤ 1 := by
  refine ⟨Rules.treeShaped_of_origin stutter.origin (fun hp => ?_) fun hp hbs => ?_, _, rfl, ?_⟩
  · cases hp
    rfl
  · obtain ⟨bs', hbs', hfound⟩ := stutter_origin _ hp
    obtain rfl := Except.ok.inj (hbs'.symm.trans hbs)
    exact hfound
  · intro t
    obtain ⟨hstep, hentry, _⟩ := Tree.ofRoot_spec (υ := Float) stutter.places[0]
    have hbranches : (stutter.rules none).branches stutter.places[0] =
        .ok [([("to", .text "end")], stutter.places[1]), ([("to", .text "end")], stutter.places[1])] := rfl
    obtain ⟨moves, h, _⟩ := expandNode_unfolds (e := { tree := Tree.ofRoot stutter.places[0] }) hstep hentry rfl hbranches rfl
    change Tree.Unfolds _ _ _ _ moves _ t at h
    have hlength : moves.length = 2 := h.follows.length_eq.symm
    have hroot : t.root = _ := h.root
    constructor
    · have hcount := ((Tree.pathCount_grow (.ofRoot _) hentry h.grown).1 hentry).1 .refl
      rw [(Tree.pathCount_ofRoot hentry).1, hlength] at hcount
      rw [hroot, hcount]
      rfl
    · have hid : ∀ leaf, t.IsLeaf leaf → t.graph.slot? "end" = some leaf := by
        rintro leaf ⟨e', he', hmoves⟩
        cases hold : Tree.entry? (Tree.ofRoot _ : Tree Place Float) leaf with
        | none =>
            obtain ⟨b, hb, rfl⟩ := h.joined hold he'
            have hend : b.2.id = "end" := by
              simp only [List.mem_cons, List.not_mem_nil, or_false] at hb
              rcases hb with rfl | rfl <;> rfl
            exact hend ▸ h.inStep.slot?_id he'
        | some e₁ =>
            obtain rfl := (Tree.pathCount_ofRoot hold).2
            obtain rfl := Option.some.inj ((h.own hentry).symm.trans he')
            rcases hmoves with hmoves | hmoves
            · cases hmoves
            · rw [Option.some.inj hmoves] at hlength
              cases hlength
      refine Finset.card_le_one.mpr fun a ha b hb => ?_
      exact Option.some.inj ((hid a (Tree.mem_leavesBelow.mp ha).2).symm.trans (hid b (Tree.mem_leavesBelow.mp hb).2))

end Engine

end SearchLab.Game
