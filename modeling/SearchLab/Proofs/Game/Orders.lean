import Mathlib.Data.List.Dedup
import SearchLab.Proofs.Game.PathCount

/-!
# Path counts and the order of expansion

When a position is expanded, the lines of play that it adds are credited to the nodes that see it at that time, over
positions that were expanded before. A node that comes to see it later, because a position between them is expanded
last, is never credited with them: they are missed. So the count of a node is what all positions below it have added,
less what was missed, and only the second part depends on the order.

* `Recorded.unfolds` — a count is one line of play and what was credited, step by step;
* `credited_add_missed` — what was credited and what was missed make up a sum that is the same for all orders;
* `missed_of_parentsFirst` — nothing is missed where positions are expanded after those that lead to them;
* `counts_agree_iff` — two orders agree on a count exactly when they have missed the same.
-/

namespace SearchLab.Game

open Relation (ReflTransGen)

namespace Tree

/-! ## What is credited, and what is missed -/

/-- A position that was expanded has a move to another. -/
def Found (opened : List Opening) (a b : String) : Prop := ∃ o ∈ opened, o.id = a ∧ b ∈ o.targets

/-- From one position another is seen, over positions that were expanded. -/
def Sees (opened : List Opening) : String → String → Prop := ReflTransGen (Found opened)

open scoped Classical in
/-- The lines of play that a node is credited with, when positions are expanded in an order; the last one comes first. -/
noncomputable def credited : List Opening → String → Nat
  | [], _ => 1
  | o :: before, id => credited before id + if Sees before id o.id then o.gain else 0

open scoped Classical in
/-- The lines of play of some positions that a node is not credited with, although it sees them in the end. -/
noncomputable def missedOf (all : List Opening) : List Opening → String → Nat
  | [], _ => 0
  | o :: before, id => missedOf all before id + if Sees all id o.id ∧ ¬ Sees before id o.id then o.gain else 0

/-- The lines of play that a node is not credited with, although it sees in the end where they come from. -/
noncomputable def missed (opened : List Opening) (id : String) : Nat := missedOf opened opened id

open scoped Classical in
/-- What some positions have added to the lines of play that a node sees in the end. -/
noncomputable def seenOf (all : List Opening) : List Opening → String → Nat
  | [], _ => 0
  | o :: rest, id => (if Sees all id o.id then o.gain else 0) + seenOf all rest id

variable {opened opened' : List Opening}

theorem Sees.mono (h : opened ⊆ opened') {a b : String} (hab : Sees opened a b) : Sees opened' a b :=
  ReflTransGen.mono (fun _ _ ⟨o, ho, hfound⟩ => ⟨o, h ho, hfound⟩) a b hab

/-- From a position that was not expanded only itself is seen. -/
theorem Sees.eq_of_foreign {a b : String} (h : Sees opened a b) (ha : ∀ o ∈ opened, o.id ≠ a) : a = b := by
  rcases ReflTransGen.cases_head h with hsame | ⟨_, ⟨o, ho, hid, _⟩, _⟩
  · exact hsame
  · exact absurd hid (ha o ho)

/-- A position that was not expanded has one line of play. -/
theorem credited_of_foreign {id : String} (h : ∀ o ∈ opened, o.id ≠ id) : credited opened id = 1 := by
  induction opened with
  | nil => rfl
  | cons o before ih =>
      have hbefore : ∀ o' ∈ before, o'.id ≠ id := fun o' ho' => h o' (List.mem_cons_of_mem o ho')
      have hunseen : ¬ Sees before id o.id := fun hsees => h o List.mem_cons_self (hsees.eq_of_foreign hbefore).symm
      rw [credited, ih hbefore, if_neg hunseen]

theorem credited_add_missedOf {all opened : List Opening} (h : opened ⊆ all) (id : String) :
    credited opened id + missedOf all opened id = 1 + seenOf all opened id := by
  induction opened with
  | nil => rfl
  | cons o before ih =>
      have hbefore : before ⊆ all := fun o' ho' => h (List.mem_cons_of_mem o ho')
      have hmono : Sees before id o.id → Sees all id o.id := Sees.mono hbefore
      have hrest := ih hbefore
      simp only [seenOf, credited, missedOf]
      by_cases hall : Sees all id o.id
      · by_cases hsees : Sees before id o.id
        · simp only [hall, hsees, not_true, and_false, if_true, if_false]
          omega
        · simp only [hall, hsees, not_false_eq_true, and_self, if_true, if_false]
          omega
      · have hsees : ¬ Sees before id o.id := fun hsees => hall (hmono hsees)
        simp only [hall, hsees, false_and, if_false]
        omega

/-- **What was credited and what was missed** make up what all positions that are seen in the end have added. -/
theorem credited_add_missed (opened : List Opening) (id : String) :
    credited opened id + missed opened id = 1 + seenOf opened opened id :=
  credited_add_missedOf (List.Subset.refl opened) id

/-- Positions are expanded after all those that lead to them. -/
def ParentsFirst (opened : List Opening) : Prop :=
  ∀ later o before, opened = later ++ o :: before → ∀ o' ∈ opened, o.id ∈ o'.targets → o' ∈ before

/-- A position that is expanded after those that lead to it is seen at that time from wherever it will be seen. -/
theorem ParentsFirst.sees (h : ParentsFirst opened) {later before : List Opening} {o : Opening}
    (hsplit : opened = later ++ o :: before) {id : String} (hsees : Sees opened id o.id) : Sees before id o.id := by
  induction hlength : before.length using Nat.strong_induction_on generalizing later before o with
  | _ n ih =>
      rcases ReflTransGen.cases_tail hsees with hsame | ⟨y, hpath, o', ho', rfl, htarget⟩
      · exact hsame ▸ .refl
      · have hmem := h later o before hsplit o' ho' htarget
        obtain ⟨later', before', rfl⟩ := List.append_of_mem hmem
        have hshorter : before'.length < n := by
          rw [← hlength, List.length_append, List.length_cons]
          omega
        have hsplit' : opened = (later ++ o :: later') ++ o' :: before' := by
          rw [hsplit, List.append_assoc, List.cons_append]
        have hfirst := ih before'.length hshorter hsplit' hpath rfl
        have hsubset : before' ⊆ later' ++ o' :: before' := fun x hx =>
          List.mem_append_right later' (List.mem_cons_of_mem o' hx)
        exact (hfirst.mono hsubset).tail ⟨o', hmem, rfl, htarget⟩

/-- **Nothing is missed** where positions are expanded after all those that lead to them. -/
theorem missed_of_parentsFirst (h : ParentsFirst opened) (id : String) : missed opened id = 0 := by
  have hall : ∀ later rest, opened = later ++ rest → missedOf opened rest id = 0 := by
    intro later rest hsplit
    induction rest generalizing later with
    | nil => rfl
    | cons o before ih =>
        have hrest := ih (later ++ [o]) (by rw [hsplit, List.append_assoc, List.singleton_append])
        have hnone : ¬ (Sees opened id o.id ∧ ¬ Sees before id o.id) := fun ⟨hsees, hmissed⟩ =>
          hmissed (h.sees hsplit hsees)
        rw [missedOf, hrest, if_neg hnone]
  exact hall [] opened rfl

/-! ## What a tree keeps of the order -/

variable {π υ : Type} [Position π υ]

/-- The positions that are expanded in a tree are those that were found, and its counts are what was credited. -/
structure Recorded (opened : List Opening) (t : Tree π υ) : Prop where
  mirrors : t.Mirrors
  listed : ∀ {slot e moves}, t.entry? slot = some e → e.moves = some moves → Opening.of e.position moves ∈ opened
  found : ∀ {o}, o ∈ opened → ∃ slot e moves, t.entry? slot = some e ∧ e.moves = some moves ∧ o = Opening.of e.position moves
  once : (opened.map Opening.id).Nodup
  counts : ∀ {slot e}, t.entry? slot = some e → t.pathCount slot = (credited opened (Position.id e.position)).toUInt64

/-- Two nodes of a tree with the same id are one. -/
theorem InStep.eq_of_id {t : Tree π υ} (h : t.InStep) {a b : Nat} {ea eb : Entry π υ} (ha : t.entry? a = some ea)
    (hb : t.entry? b = some eb) (hid : Position.id ea.position = Position.id eb.position) : a = b :=
  Option.some.inj ((h.slot?_id ha).symm.trans (hid ▸ h.slot?_id hb))

namespace Recorded

variable {s t : Tree π υ}

/-- A position is seen from another where its node stands below. -/
theorem sees_iff (h : Recorded opened t) {a b : Nat} {ea eb : Entry π υ} (ha : t.entry? a = some ea)
    (hb : t.entry? b = some eb) :
    Sees opened (Position.id ea.position) (Position.id eb.position) ↔ t.Above a b := by
  have hstep := h.mirrors.toInStep
  constructor
  · intro hsees
    have hnode : ∀ {id}, Sees opened (Position.id ea.position) id →
        ∃ c ec, t.entry? c = some ec ∧ Position.id ec.position = id ∧ t.Above a c := by
      intro id hpath
      induction hpath with
      | refl => exact ⟨a, ea, ha, rfl, .refl⟩
      | tail _ hfound ih =>
          obtain ⟨c, ec, hc, hid, habove⟩ := ih
          obtain ⟨o, ho, hoid, htarget⟩ := hfound
          obtain ⟨c', ec', moves, hc', hmoves, rfl⟩ := h.found ho
          obtain rfl := hstep.eq_of_id hc' hc (hoid.trans hid.symm)
          obtain ⟨m, hm, rfl⟩ := List.mem_map.mp htarget
          obtain ⟨ed, hd, hdid⟩ := (hstep.lookup _ _).mp (hstep.targets hc' hmoves m hm)
          exact ⟨m.slot, ed, hd, hdid, habove.tail ⟨ec', hc', m, by simpa [hmoves] using hm, rfl⟩⟩
    obtain ⟨c, ec, hc, hid, habove⟩ := hnode hsees
    exact hstep.eq_of_id hc hb hid ▸ habove
  · intro habove
    induction habove generalizing eb with
    | refl => exact Option.some.inj (ha.symm.trans hb) ▸ .refl
    | tail _ honward ih =>
        obtain ⟨ec, hc, m, hm, rfl⟩ := honward
        cases hmoves : ec.moves with
        | none => simp [hmoves] at hm
        | some moves =>
            have hm : m ∈ moves := by simpa [hmoves] using hm
            have hid := (hstep.targets hc hmoves m hm)
            obtain ⟨ed, hd, hdid⟩ := (hstep.lookup _ _).mp hid
            obtain rfl := Option.some.inj (hd.symm.trans hb)
            exact (ih hc).tail ⟨_, h.listed hc hmoves, rfl, hdid ▸ List.mem_map_of_mem hm⟩

/-- The first position is credited with one line of play. -/
theorem ofRoot (p : π) : Recorded [] (Tree.ofRoot p : Tree π υ) := by
  obtain ⟨_, _, hall⟩ := ofRoot_spec (υ := υ) p
  refine ⟨.ofRoot p, fun he hmoves => ?_, by simp, by simp, fun he => (pathCount_ofRoot he).1⟩
  rw [hall he] at hmoves
  cases hmoves

section Unfolds

variable {rules : Rules π} {slot : Nat} {e : Entry π υ} {branches : List (Action × π)} {moves : List Move}

/-- Whatever was expanded before stands in another slot. -/
theorem ne_of_expanded (h : Unfolds rules slot e branches moves s t) {other : Nat} {e' : Entry π υ} {moves' : List Move}
    (he' : s.entry? other = some e') (hmoves' : e'.moves = some moves') : other ≠ slot := by
  rintro rfl
  rw [Option.some.inj (he'.symm.trans h.entry), h.closed] at hmoves'
  cases hmoves'

theorem listed_unfolds (hs : Recorded opened s) (h : Unfolds rules slot e branches moves s t) {other : Nat}
    {e' : Entry π υ} {moves' : List Move} (he' : t.entry? other = some e') (hmoves' : e'.moves = some moves') :
    Opening.of e'.position moves' ∈ Opening.of e.position moves :: opened := by
  by_cases hslot : other = slot
  · subst hslot
    obtain rfl := Option.some.inj ((h.own h.entry).symm.trans he')
    obtain rfl := Option.some.inj hmoves'
    exact List.mem_cons_self
  · cases hold : s.entry? other with
    | none =>
        obtain ⟨_, _, rfl⟩ := h.joined hold he'
        cases hmoves'
    | some e₁ =>
        obtain rfl := Option.some.inj ((h.others hslot hold).symm.trans he')
        exact List.mem_cons_of_mem _ (hs.listed hold hmoves')

theorem found_unfolds (hs : Recorded opened s) (h : Unfolds rules slot e branches moves s t) {o : Opening}
    (ho : o ∈ Opening.of e.position moves :: opened) :
    ∃ other e' moves', t.entry? other = some e' ∧ e'.moves = some moves' ∧ o = Opening.of e'.position moves' := by
  rcases List.mem_cons.mp ho with rfl | ho
  · exact ⟨slot, _, moves, h.own h.entry, rfl, rfl⟩
  · obtain ⟨other, e', moves', he', hmoves', rfl⟩ := hs.found ho
    exact ⟨other, e', moves', h.others (ne_of_expanded h he' hmoves') he', hmoves', rfl⟩

/-- The position was not recorded before. -/
theorem not_recorded (hs : Recorded opened s) (h : Unfolds rules slot e branches moves s t) :
    Position.id e.position ∉ opened.map Opening.id := by
  intro hagain
  obtain ⟨o, ho, hid⟩ := List.mem_map.mp hagain
  obtain ⟨other, e', moves', he', hmoves', rfl⟩ := hs.found ho
  exact ne_of_expanded h he' hmoves' (hs.mirrors.toInStep.eq_of_id he' h.entry hid)

/-- A node that is new bears the id of no node that was there. -/
theorem id_ne_of_new (hs : Recorded opened s) (h : Unfolds rules slot e branches moves s t) {v : Nat} {e' : Entry π υ}
    (hv : t.entry? v = some e') (hnew : s.entry? v = none) {o : Opening} (ho : o ∈ Opening.of e.position moves :: opened) :
    o.id ≠ Position.id e'.position := by
  have hforeign : ∀ {other e₁}, s.entry? other = some e₁ → Position.id e₁.position ≠ Position.id e'.position := by
    intro other e₁ he₁ hid
    obtain ⟨e₂, he₂, hposition, _⟩ := (h.toOpens.grows h.entry h.closed).stays he₁
    obtain rfl := h.inStep.eq_of_id he₂ hv (hposition ▸ hid)
    rw [hnew] at he₁
    cases he₁
  rcases List.mem_cons.mp ho with rfl | ho
  · exact hforeign h.entry
  · obtain ⟨other, e₁, _, he₁, _, rfl⟩ := hs.found ho
    exact hforeign he₁

/-- The nodes that see the position are credited with what it adds. -/
theorem counts_unfolds (hs : Recorded opened s) (h : Unfolds rules slot e branches moves s t) {v : Nat} {e' : Entry π υ}
    (hv : t.entry? v = some e') :
    t.pathCount v = (credited (Opening.of e.position moves :: opened) (Position.id e'.position)).toUInt64 := by
  obtain ⟨hraised, hfresh⟩ := pathCount_grow hs.mirrors h.entry h.grown
  cases hold : s.entry? v with
  | none =>
      rw [hfresh hold hv, credited_of_foreign fun o ho => hs.id_ne_of_new h hv hold ho]
      rfl
  | some e₁ =>
      obtain ⟨e₂, he₂, hposition, _⟩ := (h.toOpens.grows h.entry h.closed).stays hold
      obtain rfl := Option.some.inj (he₂.symm.trans hv)
      have hsees : Sees opened (Position.id e₁.position) (Opening.of e.position moves).id ↔ s.Above v slot :=
        hs.sees_iff hold h.entry
      rw [hposition, credited]
      by_cases habove : s.Above v slot
      · rw [(hraised hold).1 habove, hs.counts hold, if_pos (hsees.mpr habove)]
        exact (UInt64.ofNat_add _ _).symm
      · rw [(hraised hold).2 habove, hs.counts hold, if_neg (hsees.not.mpr habove), Nat.add_zero]

/-- **One position more**: it is recorded once, and the nodes that see it are credited with what it adds. -/
theorem unfolds (hs : Recorded opened s) (h : Unfolds rules slot e branches moves s t) :
    Recorded (Opening.of e.position moves :: opened) t where
  mirrors := h.mirrors hs.mirrors
  listed := hs.listed_unfolds h
  found := hs.found_unfolds h
  once := List.nodup_cons.mpr ⟨hs.not_recorded h, hs.once⟩
  counts := hs.counts_unfolds h

end Unfolds

end Recorded

theorem Unfolded.recorded {rules : Rules π} {p : π} {t : Tree π υ} (h : Unfolded rules (ofRoot p) opened t) :
    Recorded opened t := by
  induction h with
  | start => exact .ofRoot p
  | step _ hstep ih => exact ih.unfolds hstep

end Tree

/-! ## Games that are expanded as far as they go -/

variable {π υ : Type} [Position π υ]

/-- Positions with the same id are alike: the game ends at all of them or at none, and they lead to the same positions,
one after the other. -/
structure Rules.Alike (rules : Rules π) (G : Set π) : Prop where
  isTerminal : ∀ {p q}, p ∈ G → q ∈ G → Position.id p = Position.id q → Position.isTerminal p = Position.isTerminal q
  branches : ∀ {p q bs bs'}, p ∈ G → q ∈ G → Position.id p = Position.id q → rules.branches p = .ok bs →
    rules.branches q = .ok bs' → bs.map (fun b => Position.id b.2) = bs'.map fun b => Position.id b.2

/-- Positions are alike where each id stands for one of them only. -/
theorem Rules.alike_of_injective {rules : Rules π} {G : Set π}
    (h : ∀ p ∈ G, ∀ q ∈ G, Position.id p = Position.id q → p = q) : rules.Alike G where
  isTerminal hp hq hid := by rw [h _ hp _ hq hid]
  branches hp hq hid hbs hbs' := by
    obtain rfl := h _ hp _ hq hid
    rw [Except.ok.inj (hbs.symm.trans hbs')]

/-- What is to be found at a position, by the rules. -/
def Rules.opening (rules : Rules π) (p : π) : Tree.Opening :=
  match rules.branches p with
  | .ok branches => ⟨Position.id p, branches.map fun b => Position.id b.2, Tree.gain p branches.length⟩
  | .error _ => ⟨Position.id p, [], 0⟩

open SearchLab.Game.Tree (Opening Unfolded Unfolds Recorded ofRoot seenOf Sees Found)

/-- All positions that can be reached and at which the game goes on are expanded, and where it ends no move was found. -/
structure Rules.Explored (rules : Rules π) (p : π) (opened : List Opening) : Prop where
  all : ∀ {q}, rules.Reaches p q → Position.isTerminal q = false → ∃ o ∈ opened, o.id = Position.id q
  ended : ∀ {q}, rules.Reaches p q → Position.isTerminal q = true → ∀ o ∈ opened, o.id = Position.id q → o.targets = []

namespace Rules

variable {rules : Rules π} {G : Set π} {p : π} {opened opened' : List Opening} {t t' : Tree π υ}

/-- All positions of the tree can be reached. -/
theorem reaches_of_unfolded (h : Unfolded rules (ofRoot p) opened t)
    (hended : ∀ {q}, rules.Reaches p q → Position.isTerminal q = true → ∀ o ∈ opened, o.id = Position.id q → o.targets = [])
    {slot : Nat} {e : Entry π υ} (he : t.entry? slot = some e) : rules.Reaches p e.position := by
  induction h generalizing slot e with
  | start =>
      rw [(Tree.ofRoot_spec p).2.2 he]
      exact .start
  | @step before s t source e₀ branches moves _ hstep ih =>
      have ih := fun {slot} {e} => @ih (fun hq hend o ho => hended hq hend o (List.mem_cons_of_mem _ ho)) slot e
      have hparent := ih hstep.entry
      by_cases hsource : slot = source
      · subst hsource
        exact Option.some.inj ((hstep.own hstep.entry).symm.trans he) ▸ hparent
      · cases hold : s.entry? slot with
        | some e₁ => exact Option.some.inj ((hstep.others hsource hold).symm.trans he) ▸ ih hold
        | none =>
            obtain ⟨b, hb, rfl⟩ := hstep.joined hold he
            cases hend : Position.isTerminal e₀.position with
            | false => exact .move hparent hend hstep.given hb
            | true =>
                have hnone := hended hparent hend _ List.mem_cons_self rfl
                have hmoves : moves = [] := List.map_eq_nil_iff.mp hnone
                have hlength := hstep.follows.length_eq
                rw [hmoves, List.length_nil, List.length_eq_zero_iff] at hlength
                rw [hlength] at hb
                cases hb

theorem opening_of_follows {branches : List (Action × π)} {moves : List Move} (hbranches : rules.branches p = .ok branches)
    (hfollows : List.Forall₂ Tree.Follows branches moves) : Opening.of p moves = rules.opening p := by
  rw [Opening.of, opening, hbranches, Tree.ids_of_follows hfollows, ← hfollows.length_eq]

/-- What was found at positions with the same id is the same. -/
theorem Alike.opening_eq (halike : rules.Alike G) (hobeys : t.Obeys rules G) (hobeys' : t'.Obeys rules G) {a b : Nat}
    {ea eb : Entry π υ} {moves moves' : List Move} (ha : t.entry? a = some ea) (hb : t'.entry? b = some eb)
    (hmoves : ea.moves = some moves) (hmoves' : eb.moves = some moves')
    (hid : Position.id ea.position = Position.id eb.position) :
    Opening.of ea.position moves = Opening.of eb.position moves' := by
  obtain ⟨bs, hbs, hfollows⟩ := hobeys.moves ha hmoves
  obtain ⟨bs', hbs', hfollows'⟩ := hobeys'.moves hb hmoves'
  have hterminal := halike.isTerminal (hobeys.position ha) (hobeys'.position hb) hid
  have hids := halike.branches (hobeys.position ha) (hobeys'.position hb) hid hbs hbs'
  have hlength : bs.length = bs'.length := by simpa using congrArg List.length hids
  rw [opening_of_follows hbs hfollows, opening_of_follows hbs' hfollows', opening, opening, hbs, hbs']
  simp only [hid, hids, Tree.gain, hterminal, hlength]

/-- A position that can be reached has its node in a tree that is expanded as far as it goes. -/
theorem Explored.holds (h : rules.Explored p opened) (hwithin : rules.Within G) (halike : rules.Alike G) (hp : p ∈ G)
    (hunfolded : Unfolded rules (ofRoot p) opened t) (hobeys : t.Obeys rules G) {q : π} (hq : rules.Reaches p q) :
    ∃ slot e, t.entry? slot = some e ∧ Position.id e.position = Position.id q := by
  have hrecorded := hunfolded.recorded
  have hstep := hrecorded.mirrors.toInStep
  induction hq with
  | start =>
      obtain ⟨e, he, hposition, _⟩ := hunfolded.root_grows.2.stays (Tree.ofRoot_spec p).2.1
      exact ⟨_, e, he, by rw [hposition]⟩
  | @move q branches branch hq hopen hbranches hbranch _ =>
      obtain ⟨o, ho, hid⟩ := h.all hq hopen
      obtain ⟨slot, e, moves, he, hmoves, rfl⟩ := hrecorded.found ho
      obtain ⟨bs, hbs, hfollows⟩ := hobeys.moves he hmoves
      have hids := halike.branches (hobeys.position he) (hwithin.reaches hp hq) hid hbs hbranches
      rw [← Tree.ids_of_follows hfollows] at hids
      have hmem : Position.id branch.2 ∈ moves.map Move.id := hids ▸ List.mem_map_of_mem hbranch
      obtain ⟨m, hm, hmid⟩ := List.mem_map.mp hmem
      obtain ⟨e', he', hid'⟩ := (hstep.lookup _ _).mp (hstep.targets he hmoves m hm)
      exact ⟨m.slot, e', he', hid'.trans hmid⟩

/-- The position of a node has its node in a tree that is expanded as far as it goes. -/
theorem Explored.slot?_isSome (h : rules.Explored p opened) (h' : rules.Explored p opened') (hwithin : rules.Within G)
    (halike : rules.Alike G) (hp : p ∈ G) (hunfolded : Unfolded rules (ofRoot p) opened t)
    (hunfolded' : Unfolded rules (ofRoot p) opened' t') (hobeys' : t'.Obeys rules G) {id : String}
    (hid : (t.graph.slot? id).isSome = true) : (t'.graph.slot? id).isSome = true := by
  obtain ⟨slot, hslot⟩ := Option.isSome_iff_exists.mp hid
  obtain ⟨e, he, rfl⟩ := (hunfolded.recorded.mirrors.lookup _ _).mp hslot
  have hreached := reaches_of_unfolded hunfolded h.ended he
  obtain ⟨slot', e', he', hsame⟩ := h'.holds hwithin halike hp hunfolded' hobeys' hreached
  rw [← hsame, hunfolded'.recorded.mirrors.slot?_id he', Option.isSome_some]

/-- What was found at a position with moves is found whenever the game is expanded as far as it goes. -/
theorem Explored.subset (h : rules.Explored p opened) (h' : rules.Explored p opened') (halike : rules.Alike G)
    (hunfolded : Unfolded rules (ofRoot p) opened t) (hunfolded' : Unfolded rules (ofRoot p) opened' t')
    (hobeys : t.Obeys rules G) (hobeys' : t'.Obeys rules G) {o : Opening} (ho : o ∈ opened) (hmoves : o.targets ≠ []) :
    o ∈ opened' := by
  obtain ⟨slot, e, moves, he, hkept, rfl⟩ := hunfolded.recorded.found ho
  have hreached := reaches_of_unfolded hunfolded h.ended he
  cases hend : Position.isTerminal e.position with
  | true => exact absurd (h.ended hreached hend _ ho rfl) hmoves
  | false =>
      obtain ⟨o', ho', hid⟩ := h'.all hreached hend
      obtain ⟨slot', e', moves', he', hkept', rfl⟩ := hunfolded'.recorded.found ho'
      exact halike.opening_eq hobeys' hobeys he' he hkept' hkept hid ▸ ho'

end Rules

namespace Tree

/-- In which order positions were expanded makes no difference to what is seen in the end. -/
theorem seenOf_perm {all opened opened' : List Opening} (h : opened.Perm opened') (id : String) :
    seenOf all opened id = seenOf all opened' id := by
  induction h with
  | nil => rfl
  | cons o _ ih => rw [seenOf, seenOf, ih]
  | swap o o' rest =>
      simp only [seenOf]
      exact Nat.add_left_comm _ _ _
  | trans _ _ ih ih' => exact ih.trans ih'

/-- Positions without moves add nothing to what is seen. -/
theorem seenOf_eq_of_subset {opened opened' : List Opening} {t t' : Tree π υ} (h : Recorded opened t)
    (h' : Recorded opened' t') (hthere : ∀ o ∈ opened, o.targets ≠ [] → o ∈ opened')
    (hback : ∀ o ∈ opened', o.targets ≠ [] → o ∈ opened) (id : String) :
    seenOf opened opened id = seenOf opened' opened' id := by
  have hall : ∀ {opened : List Opening} {t : Tree π υ}, Recorded opened t → ∀ all,
      seenOf all opened id = seenOf all (opened.filter fun o => o.targets ≠ []) id := by
    intro opened t h all
    have hgain : ∀ o ∈ opened, o.targets = [] → o.gain = 0 := by
      intro o ho htargets
      obtain ⟨_, e, moves, _, _, rfl⟩ := h.found ho
      obtain rfl : moves = [] := List.map_eq_nil_iff.mp htargets
      simp [Opening.of, gain]
    clear h
    induction opened with
    | nil => rfl
    | cons o rest ih =>
        have hrest := ih fun o' ho' => hgain o' (List.mem_cons_of_mem o ho')
        by_cases htargets : o.targets = []
        · simp [seenOf, htargets, hgain o List.mem_cons_self htargets, hrest]
        · simp [seenOf, htargets, hrest]
  have hsees : Sees opened = Sees opened' := by
    have hmono : ∀ {opened opened' : List Opening}, (∀ o ∈ opened, o.targets ≠ [] → o ∈ opened') → ∀ {a b},
        Sees opened a b → Sees opened' a b := by
      intro opened opened' hsub a b
      refine ReflTransGen.mono (fun x y hfound => ?_) a b
      obtain ⟨o, ho, hid, htarget⟩ := hfound
      exact ⟨o, hsub o ho (List.ne_nil_of_mem htarget), hid, htarget⟩
    exact funext fun a => funext fun b => propext ⟨hmono hthere, hmono hback⟩
  have hperm : (opened.filter fun o => o.targets ≠ []).Perm (opened'.filter fun o => o.targets ≠ []) := by
    refine (List.perm_ext_iff_of_nodup ((List.Nodup.of_map _ h.once).filter _) ((List.Nodup.of_map _ h'.once).filter _)).mpr ?_
    intro o
    simp only [List.mem_filter, decide_eq_true_eq]
    exact ⟨fun ⟨ho, hmoves⟩ => ⟨hthere o ho hmoves, hmoves⟩, fun ⟨ho, hmoves⟩ => ⟨hback o ho hmoves, hmoves⟩⟩
  have hsame : ∀ rest, seenOf opened rest id = seenOf opened' rest id := by
    intro rest
    induction rest with
    | nil => rfl
    | cons o rest ih => rw [seenOf, seenOf, ih, hsees]
  rw [hall h, hall h', hsame, seenOf_perm hperm]

end Tree

namespace Engine

open SearchLab.Game.Tree (credited missed ParentsFirst)

/-- **Two orders agree on a path count exactly when they have missed the same.** Take a game in which positions with the
same id are alike, and two sequences of calls on the nodes of its tree, by rules that may fail at times and under any
budgets, each of which has expanded all positions that can be reached and at which the game goes on. The two trees have
the same positions. A count and what the order has missed there make up the same word in both trees, so the counts of a
position are the same exactly when what was missed is, and they are where both orders expand each position after those
that lead to it. -/
theorem counts_agree_iff {rules : Rules π} {G : Set π} (hwithin : rules.Within G) (halike : rules.Alike G)
    {fresh : Engine π υ} (hfresh : ofRules rules = .ok fresh) {p : π} (hp : rules.initial = .ok p)
    {calls calls' : List (Call π)} (hcalls : ∀ call ∈ calls, call.OnNodes rules)
    (hcalls' : ∀ call ∈ calls', call.OnNodes rules) (hexplored : rules.Explored p (openings calls fresh))
    (hexplored' : rules.Explored p (openings calls' fresh)) :
    let t := (runAll calls fresh).tree
    let t' := (runAll calls' fresh).tree
    let lost := missed (openings calls fresh)
    let lost' := missed (openings calls' fresh)
    ∀ id, (t.graph.slot? id).isSome = (t'.graph.slot? id).isSome ∧
      ∀ slot slot', t.graph.slot? id = some slot → t'.graph.slot? id = some slot' →
        t.pathCount slot + (lost id).toUInt64 = t'.pathCount slot' + (lost' id).toUInt64 ∧
        (t.pathCount slot = t'.pathCount slot' ↔ (lost id).toUInt64 = (lost' id).toUInt64) ∧
        (ParentsFirst (openings calls fresh) → ParentsFirst (openings calls' fresh) →
          t.pathCount slot = t'.pathCount slot') := by
  intro t t' lost lost' id
  obtain ⟨q, hq, hunfolded⟩ := unfolded_of_fresh hfresh hcalls
  obtain ⟨q', hq', hunfolded'⟩ := unfolded_of_fresh hfresh hcalls'
  rw [Except.ok.inj (hq.symm.trans hp)] at hunfolded
  rw [Except.ok.inj (hq'.symm.trans hp)] at hunfolded'
  have hpG := hwithin.initial hp
  have hobeys := (hunfolded.mirrors_obeys hwithin (.ofRoot p) (.ofRoot hpG)).2
  have hobeys' := (hunfolded'.mirrors_obeys hwithin (.ofRoot p) (.ofRoot hpG)).2
  have hrecorded := hunfolded.recorded
  have hrecorded' := hunfolded'.recorded
  refine ⟨?_, fun slot slot' hslot hslot' => ?_⟩
  · rw [Bool.eq_iff_iff]
    exact ⟨hexplored.slot?_isSome hexplored' hwithin halike hpG hunfolded hunfolded' hobeys',
      hexplored'.slot?_isSome hexplored hwithin halike hpG hunfolded' hunfolded hobeys⟩
  · have hseen := Tree.seenOf_eq_of_subset hrecorded hrecorded'
      (fun o => hexplored.subset hexplored' halike hunfolded hunfolded' hobeys hobeys')
      (fun o => hexplored'.subset hexplored halike hunfolded' hunfolded hobeys' hobeys) id
    have hword : ∀ {opened : List Opening} {t : Tree π υ} {slot : Nat}, Recorded opened t →
        t.graph.slot? id = some slot →
          t.pathCount slot + (missed opened id).toUInt64 = (1 + seenOf opened opened id).toUInt64 := by
      intro opened t slot h hslot
      obtain ⟨e, he, rfl⟩ := (h.mirrors.lookup _ _).mp hslot
      rw [h.counts he, ← Tree.credited_add_missed]
      exact (UInt64.ofNat_add _ _).symm
    have hsum : t.pathCount slot + (lost id).toUInt64 = t'.pathCount slot' + (lost' id).toUInt64 := by
      rw [hword hrecorded hslot, hword hrecorded' hslot', hseen]
    have hagree : t.pathCount slot = t'.pathCount slot' ↔ (lost id).toUInt64 = (lost' id).toUInt64 := by
      constructor
      · intro hcount
        rw [hcount] at hsum
        exact (UInt64.add_right_inj _).mp hsum
      · intro hlost
        rw [hlost] at hsum
        exact (UInt64.add_left_inj _).mp hsum
    refine ⟨hsum, hagree, fun hfirst hfirst' => hagree.mpr ?_⟩
    simp only [lost, lost', Tree.missed_of_parentsFirst hfirst, Tree.missed_of_parentsFirst hfirst']

/-! ## Orders to choose from -/

/-- A position is waiting in a tree: nothing is known of it but where it stands. -/
def Waits (t : Tree π υ) (p : π) : Prop := ∃ slot, t.entry? slot = some { position := p }

/-- A position is expanded first, and others behind it. -/
theorem exists_calls_cons {rules : Rules π} {slot : Nat} {entry : Entry π υ} {branches : List (Action × π)}
    {moves : List Move} {e : Engine π υ} {order : List π}
    (hunfolds : Unfolds rules slot entry branches moves e.tree ((Call.expandNode rules slot).run e).tree)
    (hopening : (Call.expandNode rules slot).opening? e = some (Opening.of entry.position moves))
    (hrest : ∃ calls : List (Call π), (∀ call ∈ calls, call.OnNodes rules) ∧
      openings calls ((Call.expandNode rules slot).run e) = (order.map rules.opening).reverse) :
    ∃ calls : List (Call π), (∀ call ∈ calls, call.OnNodes rules) ∧
      openings calls e = ((entry.position :: order).map rules.opening).reverse := by
  obtain ⟨calls, hcalls, hopenings⟩ := hrest
  refine ⟨.expandNode rules slot :: calls, List.forall_mem_cons.mpr ⟨.refl rules, hcalls⟩, ?_⟩
  rw [openings, hopenings, hopening, Rules.opening_of_follows hunfolds.given hunfolds.follows, List.map_cons, List.reverse_cons]
  rfl

/-- Positions that wait can be expanded in any order. -/
theorem exists_calls {rules : Rules π} (order : List π) {e : Engine π υ} (h : e.tree.InStep)
    (hbudget : e.expansions = .unlimited) (hwaits : ∀ q ∈ order, Waits e.tree q)
    (hids : (order.map fun q => Position.id (υ := υ) q).Nodup) (hbranches : ∀ q ∈ order, ∃ bs, rules.branches q = .ok bs) :
    ∃ calls : List (Call π), (∀ call ∈ calls, call.OnNodes rules) ∧ openings calls e = (order.map rules.opening).reverse := by
  induction order generalizing e with
  | nil => exact ⟨[], by simp, rfl⟩
  | cons q rest ih =>
      obtain ⟨hq, hrest⟩ := List.nodup_cons.mp hids
      obtain ⟨slot, hentry⟩ := hwaits q List.mem_cons_self
      obtain ⟨bs, hbs⟩ := hbranches q List.mem_cons_self
      have hspend : e.expansions.spend? = some .unlimited := by
        rw [hbudget]
        rfl
      obtain ⟨moves, hunfolds, hleft, hopening⟩ := expandNode_unfolds h hentry rfl hbs hspend
      have hwaits' : ∀ q' ∈ rest, Waits ((Call.expandNode rules slot).run e).tree q' := by
        intro q' hq'
        obtain ⟨other, hother⟩ := hwaits q' (List.mem_cons_of_mem q hq')
        refine ⟨other, hunfolds.others ?_ hother⟩
        rintro rfl
        have hsame := congrArg Entry.position (Option.some.inj (hother.symm.trans hentry))
        dsimp only at hsame
        exact hq (hsame ▸ List.mem_map_of_mem hq')
      exact exists_calls_cons hunfolds hopening (ih hunfolds.inStep hleft hwaits' hrest
        fun q' hq' => hbranches q' (List.mem_cons_of_mem q hq'))

/-- Once the first position is expanded, the positions behind it wait. -/
theorem exists_calls_of_fresh {rules : Rules π} {p : π} {branches : List (Action × π)}
    (hbranches : rules.branches p = .ok branches)
    (hids : ∀ b ∈ branches, ∀ b' ∈ branches, Position.id b.2 = Position.id b'.2 → b.2 = b'.2)
    (hnew : ∀ b ∈ branches, Position.id b.2 ≠ Position.id p) (order : List π)
    (horder : ∀ q ∈ order, ∃ b ∈ branches, b.2 = q) (hnodup : (order.map fun q => Position.id (υ := υ) q).Nodup)
    (hlater : ∀ q ∈ order, ∃ bs, rules.branches q = .ok bs) :
    ∃ calls : List (Call π), (∀ call ∈ calls, call.OnNodes rules) ∧
      openings calls { tree := ofRoot p } = ((p :: order).map rules.opening).reverse := by
  obtain ⟨hstep, hentry, hall⟩ := Tree.ofRoot_spec (υ := υ) p
  have hspend : ({ tree := ofRoot p } : Engine π υ).expansions.spend? = some .unlimited := rfl
  obtain ⟨moves, hunfolds, hleft, hopening⟩ := expandNode_unfolds hstep hentry rfl hbranches hspend
  have hwaits : ∀ q ∈ order, Waits ((Call.expandNode rules (ofRoot p : Tree π υ).root).run { tree := ofRoot p }).tree q := by
    intro q hq
    obtain ⟨b, hb, rfl⟩ := horder q hq
    obtain ⟨m, hm, _, hmid⟩ := Tree.exists_match hunfolds.follows hb
    have hfresh : (ofRoot p : Tree π υ).graph.slot? m.id = none := by
      cases hold : (ofRoot p : Tree π υ).graph.slot? m.id with
      | none => rfl
      | some slot =>
          obtain ⟨e, he, hid⟩ := (hstep.lookup _ _).mp hold
          rw [hall he, hmid] at hid
          exact absurd hid.symm (hnew b hb)
    obtain ⟨b', hb', he, hid⟩ := hunfolds.toOpens.entry_of_new hstep hunfolds.inStep hentry hm hfresh
    exact ⟨m.slot, hids b hb b' hb' (hid.trans hmid).symm ▸ he⟩
  exact exists_calls_cons hunfolds hopening (exists_calls order hunfolds.inStep hleft hwaits hnodup hlater)

/-! ## A game with a detour -/

/-- A game in which a position can be reached at once or by a detour. -/
def detour : Table where
  initial := some "start"
  places :=
    let move (key : String) : Action := [("to", .text key)]
    [ ⟨"start", "start", some .max, false, 0.0, none, [move "detour", move "gate"]⟩,
      ⟨"detour", "detour", some .min, false, 0.0, none, [move "gate"]⟩,
      ⟨"gate", "gate", some .max, false, 0.0, none, [move "won", move "lost"]⟩,
      ⟨"won", "won", none, true, 1.0, none, []⟩,
      ⟨"lost", "lost", none, true, -1.0, none, []⟩ ]

namespace detour

/-- What is to be found at the positions at which the game goes on. -/
def atStart : Opening := ⟨"start", ["detour", "gate"], 1⟩

def atDetour : Opening := ⟨"detour", ["gate"], 0⟩

def atGate : Opening := ⟨"gate", ["won", "lost"], 1⟩

/-- How many moves are left, at most. -/
def rank (id : String) : Nat := if id = "start" then 3 else if id = "detour" then 2 else if id = "gate" then 1 else 0

theorem lowers : ∀ p ∈ detour.places, ∃ bs, (detour.rules none).branches p = .ok bs ∧
    ∀ b ∈ bs, rank b.2.id < rank p.id := by
  intro p hp
  simp only [detour, List.mem_cons, List.not_mem_nil, or_false] at hp
  rcases hp with rfl | rfl | rfl | rfl | rfl
  all_goals exact ⟨_, rfl, by simp [rank]⟩

theorem acyclic : (detour.rules none).Acyclic {p | p ∈ detour.places} := by
  refine Rules.acyclic_of_rank rank ?_
  rintro _ _ ⟨hp, _, hbranches, hbranch⟩
  obtain ⟨bs, hbs, hlower⟩ := lowers _ hp
  obtain rfl := Except.ok.inj (hbs.symm.trans hbranches)
  exact hlower _ hbranch

theorem alike : (detour.rules none).Alike {p | p ∈ detour.places} := by
  refine Rules.alike_of_injective (List.inj_on_of_nodup_map (f := Place.id) ?_)
  simp [detour]

/-- The first position is expanded first, and then the gate and the detour come in either order. -/
theorem exists_orders : ∃ (p : Place) (calls calls' : List (Call Place)),
    (detour.rules none).initial = .ok p ∧
      (∀ call ∈ calls, call.OnNodes (detour.rules none)) ∧ (∀ call ∈ calls', call.OnNodes (detour.rules none)) ∧
      openings calls ({ tree := ofRoot p } : Engine Place Float) = [atDetour, atGate, atStart] ∧
      openings calls' ({ tree := ofRoot p } : Engine Place Float) = [atGate, atDetour, atStart] := by
  have hbranches : (detour.rules none).branches detour.places[0] =
      .ok [([("to", .text "detour")], detour.places[1]), ([("to", .text "gate")], detour.places[2])] := rfl
  have horder := exists_calls_of_fresh hbranches (by simp [detour, Position.id]) (by simp [detour, Position.id])
  obtain ⟨calls, hcalls, hopenings⟩ := horder [detour.places[2], detour.places[1]] (by simp) (by simp [detour, Position.id])
    (by simp only [List.mem_cons, List.not_mem_nil, or_false]; rintro q (rfl | rfl) <;> exact ⟨_, rfl⟩)
  obtain ⟨calls', hcalls', hopenings'⟩ := horder [detour.places[1], detour.places[2]] (by simp) (by simp [detour, Position.id])
    (by simp only [List.mem_cons, List.not_mem_nil, or_false]; rintro q (rfl | rfl) <;> exact ⟨_, rfl⟩)
  exact ⟨_, calls, calls', rfl, hcalls, hcalls', hopenings, hopenings'⟩

/-- Once these three positions are expanded, the game is explored. -/
theorem explored {p : Place} (hp : (detour.rules none).initial = .ok p) {opened : List Opening}
    (h : ∀ o, o ∈ opened ↔ o = atStart ∨ o = atDetour ∨ o = atGate) : (detour.rules none).Explored p opened := by
  have hplace : ∀ {q}, (detour.rules none).Reaches p q → q ∈ detour.places := fun hq =>
    (detour.within none).reaches ((detour.within none).initial hp) hq
  constructor
  · intro q hq hopen
    have hq := hplace hq
    simp only [detour, List.mem_cons, List.not_mem_nil, or_false] at hq
    rcases hq with rfl | rfl | rfl | rfl | rfl
    · exact ⟨atStart, (h _).mpr (.inl rfl), rfl⟩
    · exact ⟨atDetour, (h _).mpr (.inr (.inl rfl)), rfl⟩
    · exact ⟨atGate, (h _).mpr (.inr (.inr rfl)), rfl⟩
    · cases hopen
    · cases hopen
  · intro q hq hend o ho hid
    have hq := hplace hq
    simp only [detour, List.mem_cons, List.not_mem_nil, or_false] at hq
    rcases hq with rfl | rfl | rfl | rfl | rfl
    · cases hend
    · cases hend
    · cases hend
    · rcases (h o).mp ho with rfl | rfl | rfl <;> exact absurd hid (by decide)
    · rcases (h o).mp ho with rfl | rfl | rfl <;> exact absurd hid (by decide)

/-- With the gate before it, the detour is credited with one line of play, and else with two. -/
theorem credited_eq : credited [atDetour, atGate, atStart] "detour" = 1 ∧
    credited [atGate, atDetour, atStart] "detour" = 2 := by
  have hstart : credited [atStart] "detour" = 1 := Tree.credited_of_foreign (by simp [atStart])
  have hgate : credited [atGate, atStart] "detour" = 1 := Tree.credited_of_foreign (by simp [atStart, atGate])
  have hsees : Sees [atDetour, atStart] "detour" atGate.id :=
    .single ⟨atDetour, List.mem_cons_self, rfl, List.mem_cons_self⟩
  constructor
  · rw [credited, hgate, if_pos (by exact .refl)]
    rfl
  · rw [credited, credited, hstart, if_pos (by exact .refl), if_pos hsees]
    rfl

end detour

/-- Where the gate is expanded before the detour, the detour misses a line of play. -/
theorem counts_agree_iff_sample : ∃ (fresh : Engine Place Float) (calls calls' : List (Call Place)),
    ofRules (detour.rules none) = .ok fresh ∧
    openings calls fresh = [detour.atDetour, detour.atGate, detour.atStart] ∧
    openings calls' fresh = [detour.atGate, detour.atDetour, detour.atStart] ∧
    ∀ slot slot', (runAll calls fresh).tree.graph.slot? "detour" = some slot →
      (runAll calls' fresh).tree.graph.slot? "detour" = some slot' →
        (runAll calls fresh).tree.pathCount slot + (missed (openings calls fresh) "detour").toUInt64 =
          (runAll calls' fresh).tree.pathCount slot' + (missed (openings calls' fresh) "detour").toUInt64 := by
  obtain ⟨p, calls, calls', hp, hcalls, hcalls', hopenings, hopenings'⟩ := detour.exists_orders
  have hfresh : ofRules (detour.rules none) = .ok ({ tree := ofRoot p } : Engine Place Float) := by rw [ofRules, hp]
  refine ⟨_, calls, calls', hfresh, hopenings, hopenings', fun slot slot' hslot hslot' => ?_⟩
  exact ((counts_agree_iff (detour.within none) detour.alike hfresh hp hcalls hcalls'
    (detour.explored hp (by simp [hopenings]; tauto)) (detour.explored hp (by simp [hopenings']; tauto)) "detour").2
      slot slot' hslot hslot').1

/-- **The order makes a difference.** The game has no cycles, and both orders expand all positions at which it goes on.
Where the gate comes before the detour, the detour has one line of play, and else it has two. -/
theorem counts_differ_on_detour : (detour.rules none).Acyclic {p | p ∈ detour.places} ∧
    ∃ (p : Place) (fresh : Engine Place Float) (calls calls' : List (Call Place)) (slot slot' : Nat),
      (detour.rules none).initial = .ok p ∧ ofRules (detour.rules none) = .ok fresh ∧
      (∀ call ∈ calls, call.OnNodes (detour.rules none)) ∧ (∀ call ∈ calls', call.OnNodes (detour.rules none)) ∧
      (detour.rules none).Explored p (openings calls fresh) ∧ (detour.rules none).Explored p (openings calls' fresh) ∧
      (runAll calls fresh).tree.graph.slot? "detour" = some slot ∧
      (runAll calls' fresh).tree.graph.slot? "detour" = some slot' ∧
      (runAll calls fresh).tree.pathCount slot = 1 ∧ (runAll calls' fresh).tree.pathCount slot' = 2 := by
  obtain ⟨p, calls, calls', hp, hcalls, hcalls', hopenings, hopenings'⟩ := detour.exists_orders
  have hfresh : ofRules (detour.rules none) = .ok ({ tree := ofRoot p } : Engine Place Float) := by rw [ofRules, hp]
  have hnode : ∀ {calls : List (Call Place)}, (∀ call ∈ calls, call.OnNodes (detour.rules none)) →
      detour.atDetour ∈ openings calls ({ tree := ofRoot p } : Engine Place Float) →
        ∃ slot, (runAll calls { tree := ofRoot p }).tree.graph.slot? "detour" = some slot ∧
          (runAll calls { tree := ofRoot p }).tree.pathCount slot =
            (credited (openings calls ({ tree := ofRoot p } : Engine Place Float)) "detour").toUInt64 := by
    intro calls hcalls hmem
    obtain ⟨p', hp', hunfolded⟩ := unfolded_of_fresh hfresh hcalls
    have hrecorded := hunfolded.recorded
    obtain ⟨slot, e, moves, he, hmoves, hfound⟩ := hrecorded.found hmem
    have hid : Position.id e.position = "detour" := (congrArg Opening.id hfound).symm
    exact ⟨slot, hid ▸ hrecorded.mirrors.slot?_id he, hid ▸ hrecorded.counts he⟩
  obtain ⟨slot, hslot, hcount⟩ := hnode hcalls (by simp [hopenings])
  obtain ⟨slot', hslot', hcount'⟩ := hnode hcalls' (by simp [hopenings'])
  rw [hopenings, detour.credited_eq.1] at hcount
  rw [hopenings', detour.credited_eq.2] at hcount'
  exact ⟨detour.acyclic, p, _, calls, calls', slot, slot', hp, hfresh, hcalls, hcalls',
    detour.explored hp (by simp [hopenings]; tauto), detour.explored hp (by simp [hopenings']; tauto), hslot, hslot',
    hcount, hcount'⟩

end Engine

end SearchLab.Game
