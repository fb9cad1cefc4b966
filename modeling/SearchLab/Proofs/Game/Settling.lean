import SearchLab.Proofs.Game.Frames
import SearchLab.Proofs.Game.Moves

/-!
# Each position is settled once

An evaluation that knows nothing to begin with gives each verdict on a position of which nothing was known, the last
one on the root. What it has found of a position it goes on to find of all that the position leads to: where a position
is closed, the positions behind its moves are known or still on the line. So in the end it has settled all that the
root leads to, and nothing else.

* `Finds`, `Follows.finds` — what some steps in a row have found;
* `Follows.closed` — what is known of a position is known behind its moves, or these lead back into the line;
* `each_position_is_settled_once` — an evaluation of a tree, from its beginning to its end.
-/

namespace SearchLab.Game.Evaluation

open Relation (ReflTransGen)

variable {π υ : Type} [Position π υ] [Score υ] {root : Nat} {start : Nat → Option υ} {t : Tree π υ} {s s' : Evaluation υ}

/-! ## Verdicts of an evaluation -/

/-- A verdict of an evaluation that knows nothing of its root yet is on a position of which nothing is known, and that the
root leads to. It is on the root when the evaluation is at its end behind it. -/
theorem Follows.found_new {v : Verdict υ} (h : Follows root start t s) (hroot : t.utility? root = none)
    (hseek : seek t s = (.ok (some v), s')) :
    t.utility? v.slot = none ∧ (v.slot = root ↔ s' = ⟨none, []⟩) ∧ ReflTransGen (Onward (approach t)) root v.slot := by
  have hsought := seek_sought t s
  rw [hseek] at hsought
  cases hsought with
  | @found _ s₁ _ hgoes hturn =>
      have hbefore : Follows root start t s₁ := ⟨h.right, h.goes.trans hgoes⟩
      have hlast := hbefore.underway.verdict_last hturn
      refine ⟨?_, hlast, hbefore.underway.verdict_reached hturn⟩
      rcases (hbefore.unsettled.turn hbefore.underway hturn).2 v rfl with hnone | hend
      · exact hnone
      · rw [hlast.mpr hend]
        exact hroot

/-- What some steps in a row have found: positions of which nothing was known, each of them once; the root last, if at
all; and what is known behind them. -/
structure Finds (root : Nat) (t t' : Tree π υ) (results : List (Verdict υ)) : Prop where
  nodup : (results.map Verdict.slot).Nodup
  new : ∀ v ∈ results, t.utility? v.slot = none
  recorded : ∀ v ∈ results, t'.utility? v.slot = some v.utility
  others : ∀ slot, slot ∉ results.map Verdict.slot → t'.utility? slot = t.utility? slot
  reached : ∀ v ∈ results, ReflTransGen (Onward (approach t)) root v.slot
  last : root ∈ results.map Verdict.slot → (results.map Verdict.slot).getLast? = some root

namespace Finds

variable {t' : Tree π υ} {results : List (Verdict υ)}

theorem nil (t : Tree π υ) : Finds root t t [] :=
  ⟨.nil, by simp, by simp, fun _ _ => rfl, by simp, by simp⟩

/-- One verdict more, before the others. -/
theorem cons {v : Verdict υ} (hlive : ∃ e, t.entry? v.slot = some e) (hnone : t.utility? v.slot = none)
    (hreached : ReflTransGen (Onward (approach t)) root v.slot) (hlast : v.slot = root → results = [])
    (h : Finds root (t.settle v) t' results) : Finds root t t' (v :: results) := by
  have hnotes := utility?_settle t hlive
  have hnew : ∀ w ∈ results, w.slot ≠ v.slot := by
    intro w hw hslot
    have hwas := h.new w hw
    rw [hnotes, noted, hslot, Function.update_self] at hwas
    cases hwas
  have hoff : v.slot ∉ results.map Verdict.slot := by
    intro hmem
    obtain ⟨w, hw, hslot⟩ := List.mem_map.mp hmem
    exact hnew w hw hslot
  have hother : ∀ {slot}, slot ≠ v.slot → (t.settle v).utility? slot = t.utility? slot := by
    intro slot hslot
    rw [hnotes, noted, Function.update_of_ne hslot]
  constructor
  · exact List.nodup_cons.mpr ⟨hoff, h.nodup⟩
  · intro w hw
    rcases List.mem_cons.mp hw with rfl | hw
    · exact hnone
    · exact (hother (hnew w hw)).symm.trans (h.new w hw)
  · intro w hw
    rcases List.mem_cons.mp hw with rfl | hw
    · rw [h.others _ hoff, hnotes, noted, Function.update_self]
    · exact h.recorded w hw
  · intro slot hslot
    rw [List.map_cons, List.mem_cons, not_or] at hslot
    exact (h.others slot hslot.2).trans (hother hslot.1)
  · intro w hw
    rcases List.mem_cons.mp hw with rfl | hw
    · exact hreached
    · rw [← approach_of_sameMoves (Tree.sameMoves_settle t v)]
      exact h.reached w hw
  · intro hmem
    by_cases hroot : v.slot = root
    · rw [hlast hroot, ← hroot]
      rfl
    · have hlater := h.last ((List.mem_cons.mp hmem).resolve_left (Ne.symm hroot))
      rw [List.map_cons, List.getLast?_cons, hlater, Option.getD_some]

end Finds

/-- **What some steps in a row find**, as long as nothing is known of the root or nothing is left to be done. -/
theorem Follows.finds {e e' : Engine π υ} {results : List (Verdict υ)} (h : Follows root start e.tree s)
    (hroot : e.tree.utility? root = none ∨ s = ⟨none, []⟩)
    (hpulls : Slice.Pulls (fun _ => false) step (s, e) results (s', e')) : Finds root e.tree e'.tree results := by
  generalize hbegin : (s, e) = c at hpulls
  generalize hend : (s', e') = c' at hpulls
  induction hpulls generalizing s e with
  | start c =>
      subst hbegin
      cases hend
      exact .nil _
  | @more _ c₁ _ v rest _ hstep hrest ih =>
      subst hbegin
      have hopen : e.tree.utility? root = none := by
        rcases hroot with hopen | rfl
        · exact hopen
        · cases (step_of_end e).symm.trans hstep
      simp only [step] at hstep
      split at hstep
      · cases hstep
      · cases hstep
      · rename_i hseek
        cases hstep
        obtain ⟨hnext, hlive, _⟩ := h.found hseek
        obtain ⟨hnone, hlast, hreached⟩ := h.found_new hopen hseek
        refine .cons hlive hnone hreached (fun hslot => ?_) (ih hnext ?_ rfl hend)
        · rw [hlast.mp hslot] at hrest
          exact (hrest.of_done (step_of_end _)).1
        · by_cases hslot : v.slot = root
          · exact .inr (hlast.mp hslot)
          · left
            rw [utility?_settle e.tree hlive, noted, Function.update_of_ne (Ne.symm hslot)]
            exact hopen

/-! ## All that the root leads to -/

/-- An evaluation that knew nothing to begin with: what it knows of a position it knows behind the moves of that, unless
they lead back into the line. -/
theorem Follows.closed (h : Follows root (fun _ => none) t s) {a b : Nat} (hab : Onward (approach t) a b)
    (ha : (t.utility? a).isSome = true) : (t.utility? b).isSome = true ∨ s.isOnLine b = true := by
  refine (h.carry (P := fun c => ∀ a b, Onward (approach t) a b → (c.2 a).isSome = true →
    (c.2 b).isSome = true ∨ c.1.isOnLine b = true) (by simp) ?_).2 a b hab ha
  intro s s' notes found hunderway haccounts hclosed hturn a b hab ha
  -- A verdict on a leaf says nothing of others, and no move leads from there.
  have hleaf : ∀ {slot u}, approach t slot = .ok (.leaf u) → (noted notes (some ⟨slot, u, []⟩) a).isSome = true →
      (notes a).isSome = true := by
    intro slot u happroach ha
    by_cases hsame : a = slot
    · obtain ⟨player, moves, hinner, _⟩ := hab
      rw [hsame] at hinner
      cases happroach.symm.trans hinner
    · rwa [noted, Function.update_of_ne hsame] at ha
  cases hturn with
  | leafRoot happroach =>
      cases hunderway with
      | fresh _ => exact (hclosed a b hab (hleaf happroach ha)).imp_left fun hb => isSome_noted hb _
  | enterRoot happroach =>
      cases hunderway with
      | fresh _ => exact (hclosed a b hab ha).imp_right fun hline => by simp [isOnLine] at hline
  | @close f below hmoves =>
      have hbehind : (notes b).isSome = true ∨ isOnLine ⟨none, f :: below⟩ b = true := by
        by_cases hsame : a = f.slot
        · exact haccounts.noted_or_onLine hmoves (hsame ▸ hab)
        · have hnoted : (Function.update notes f.slot (some f.verdict.utility) a).isSome = true := ha
          rw [Function.update_of_ne hsame] at hnoted
          exact hclosed a b hab hnoted
      rcases hbehind with hb | hb
      · exact .inl (isSome_noted hb _)
      · -- The frame that is closed leaves the line, and its position becomes known.
        by_cases hsame : b = f.slot
        · left
          simp [noted, hsame, Frame.verdict]
        · right
          simpa [isOnLine, Ne.symm hsame] using hb
  | known _ _ | back _ _ _ => simpa [isOnLine, noted] using hclosed a b hab ha
  | leaf _ _ _ happroach => exact (hclosed a b hab (hleaf happroach ha)).imp_left fun hb => isSome_noted hb _
  | enter _ _ _ _ =>
      refine (hclosed a b hab ha).imp_right fun hline => ?_
      simp only [isOnLine, List.any_cons, Bool.or_eq_true] at hline ⊢
      exact .inr hline

/-- At its end, an evaluation that knew nothing to begin with knows all that the root leads to. -/
theorem Follows.known_of_reached (h : Follows root (fun _ => none) t ⟨none, []⟩) {slot : Nat}
    (hreached : ReflTransGen (Onward (approach t)) root slot) : (t.utility? slot).isSome = true := by
  induction hreached with
  | refl => exact Option.isSome_iff_exists.mpr h.underway.root_noted
  | tail _ hab ih => exact (h.closed hab ih).resolve_right (by simp [isOnLine])

/-- There is a player wherever moves of a position that the root leads to have to be gone through. -/
def Manned (t : Tree π υ) (root : Nat) : Prop :=
  ∀ slot entry, ReflTransGen t.Reply root slot → t.entry? slot = some entry → Position.isTerminal entry.position = false →
    entry.moves.getD [] ≠ [] → (Position.player entry.position).isSome = true

namespace Manned

theorem approached (h : Manned t root) {slot : Nat} {entry : Entry π υ} (hreached : ReflTransGen t.Reply root slot)
    (hentry : t.entry? slot = some entry) : ∃ a, approach t slot = .ok a :=
  exists_approach hentry (h slot entry hreached hentry)

/-- The moves that an evaluation goes through are all replies. -/
theorem onward_iff (h : Manned t root) {slot : Nat} :
    ReflTransGen (Onward (approach t)) root slot ↔ ReflTransGen t.Reply root slot := by
  constructor
  · exact ReflTransGen.mono (fun _ _ => reply_of_onward) _ _
  · intro hreached
    induction hreached with
    | refl => exact .refl
    | @tail a b hbefore hreply ih =>
        obtain ⟨entry, hentry, m, hm, hslot⟩ := hreply
        have hopen : Position.isTerminal entry.position = false := by
          by_contra hended
          simp [Entry.replies, hended] at hm
        have hmoves : entry.replies = entry.moves.getD [] := by simp [Entry.replies, hopen]
        rw [hmoves] at hm
        obtain ⟨player, hplayer⟩ := Option.isSome_iff_exists.mp
          (h a entry hbefore hentry hopen (List.ne_nil_of_mem hm))
        refine ih.tail ⟨player, entry.moves.getD [], ?_, m, hm, hslot⟩
        cases hkept : entry.moves with
        | none => simp [hkept] at hm
        | some moves =>
            cases moves with
            | nil => simp [hkept] at hm
            | cons move rest => simp [approach, hentry, hopen, hkept, hplayer]

end Manned

end SearchLab.Game.Evaluation

namespace SearchLab.Game

variable {π υ : Type} [Position π υ]

/-- Whatever becomes of a call to expand, nothing is told of what positions are worth. -/
theorem Engine.Outcome.utility?_eq {rules : Rules π} {slot : Nat} {e : Engine π υ}
    {r : EStateM.Result Error (Engine π υ) Expansion} (h : Outcome rules slot e r) :
    (engine r).tree.utility? = e.tree.utility? := by
  cases h with
  | missing | kept | refused | failed => rfl
  | opened _ _ _ _ _ _ hopens => exact Evaluation.utility?_opens hopens

end SearchLab.Game

namespace SearchLab.Game.Session

open Relation (ReflTransGen)

variable {π υ : Type} [Position π υ] [Score υ]

/-- **Each position is settled once.** Take any game, whether its moves lead to the same positions, or back, or twice to
one position, and the engine after any sequence of expansions, other roots, budgets, sessions and ticks that begins with
nothing known of the game, so long as no position of the tree has a worth. Take any position of the tree as the root, and
let there be a player at each position that it leads to by kept moves, if that has moves and the game does not end there.

An evaluation from there takes a number of steps that bring one result each, and then says for ever that nothing is left
to be done. Its results are on the positions that the root leads to by kept moves of positions at which the game does
not end, on each of them once, and the last one is on the root. Behind it these positions have a worth, the one that the
result has told, and no others have. -/
theorem each_position_is_settled_once {start : Rules π} {fresh : Engine π υ} (hfresh : Engine.ofRules start = .ok fresh)
    (depth : Nat) (configuration : Configuration) (steps : List (Step π)) (root : Nat) :
    let e := (play steps (ofEngine fresh depth configuration)).engine
    (∀ slot, e.tree.utility? slot = none) → root < e.tree.size →
    (∀ slot entry, ReflTransGen e.tree.Reply root slot → e.tree.entry? slot = some entry →
      Position.isTerminal entry.position = false → entry.moves.getD [] ≠ [] →
        (Position.player entry.position).isSome = true) →
    ∃ results last done,
      Slice.Pulls (fun _ => false) Evaluation.step (Evaluation.ofRoot root, e) results last ∧
      Evaluation.step last = .ok none done ∧ Evaluation.step done = .ok none done ∧
      (results.map Verdict.slot).Nodup ∧
      (∀ slot, slot ∈ results.map Verdict.slot ↔ ReflTransGen e.tree.Reply root slot) ∧
      (results.map Verdict.slot).getLast? = some root ∧
      (∀ slot, (done.2.tree.utility? slot).isSome = true ↔ ReflTransGen e.tree.Reply root slot) ∧
      ∀ v ∈ results, done.2.tree.utility? v.slot = some v.utility := by
  intro e hunset hroot hplayer
  have hstep : e.tree.InStep := (mirrors_play steps (mirrors_ofEngine hfresh depth configuration)).tree.toInStep
  have hmanned : Evaluation.Manned e.tree root := hplayer
  have hnotes : e.tree.utility? = fun _ => none := funext hunset
  have hbegin : Evaluation.Follows root (fun _ => none) e.tree (Evaluation.ofRoot root) :=
    hnotes ▸ Evaluation.Follows.ofRoot (hnotes ▸ .none)
  have hlive : ∃ entry, e.tree.entry? root = some entry :=
    Option.isSome_iff_exists.mp (Tree.entry?_isSome_iff.mpr hroot)
  obtain ⟨results, last, e', hpulls, hdone, happroach, hend⟩ := Evaluation.comes_to_end hbegin fun slot hreached => by
    obtain ⟨entry, hentry⟩ := Evaluation.entry_of_reached hstep hlive hreached
    exact hmanned.approached (hmanned.onward_iff.mp hreached) hentry
  have hsame : e' = last.2 := by
    have hdone' := hdone
    simp only [Evaluation.step] at hdone'
    split at hdone' <;> cases hdone'
    rfl
  have hfinds : Evaluation.Finds root e.tree e'.tree results :=
    hsame ▸ hbegin.finds (.inl (hunset root)) hpulls
  have hsettled : ∀ slot, (e'.tree.utility? slot).isSome = true ↔ slot ∈ results.map Verdict.slot := by
    intro slot
    constructor
    · intro hsome
      by_contra hother
      rw [hfinds.others slot hother, hunset] at hsome
      cases hsome
    · intro hmem
      obtain ⟨v, hv, rfl⟩ := List.mem_map.mp hmem
      rw [hfinds.recorded v hv, Option.isSome_some]
  have hreached : ∀ slot, slot ∈ results.map Verdict.slot ↔ ReflTransGen e.tree.Reply root slot := by
    intro slot
    rw [← hmanned.onward_iff]
    constructor
    · intro hmem
      obtain ⟨v, hv, rfl⟩ := List.mem_map.mp hmem
      exact hfinds.reached v hv
    · intro hreached
      rw [← happroach] at hreached
      exact (hsettled slot).mp (hend.known_of_reached hreached)
  exact ⟨results, last, _, hpulls, hdone, Evaluation.step_of_end e', hfinds.nodup, hreached,
    hfinds.last ((hreached root).mpr .refl), fun slot => (hsettled slot).trans (hreached slot), hfinds.recorded⟩

/-- The start of a game was expanded, and the evaluation goes from there. -/
theorem each_position_is_settled_once_sample :
    let rules := Table.twoPly.rules none
    ∃ fresh : Engine Place Float, Engine.ofRules rules = .ok fresh ∧
      let root := fresh.tree.root
      let e := (play [.ask (.expandNode rules root)] (ofEngine fresh 1 {})).engine
      ∃ results last, Slice.Pulls (fun _ => false) Evaluation.step (Evaluation.ofRoot root, e) results last ∧
        (results.map Verdict.slot).Nodup ∧ (results.map Verdict.slot).getLast? = some root := by
  intro rules
  obtain ⟨fresh, hfresh⟩ : ∃ fresh : Engine Place Float, Engine.ofRules rules = .ok fresh := ⟨_, rfl⟩
  refine ⟨fresh, hfresh, ?_⟩
  have hsettled := each_position_is_settled_once hfresh 1 {} [.ask (.expandNode rules fresh.tree.root)] fresh.tree.root
  obtain ⟨p, hp, rfl⟩ := Engine.ofRules_spec hfresh
  have hwithin : rules.Within {p | p ∈ Table.twoPly.places} := Table.twoPly.within none
  obtain ⟨hstep, hroot, hall⟩ := Tree.ofRoot_spec (υ := Float) p
  have hobeys : (Tree.ofRoot p : Tree Place Float).Obeys rules {p | p ∈ Table.twoPly.places} :=
    .ofRoot (hwithin.initial hp)
  intro root e
  have houtcome := Engine.expandNode_outcome rules root (e := { tree := Tree.ofRoot p }) hstep
  have hafter : e = Engine.Outcome.engine (Engine.expandNode rules root { tree := Tree.ofRoot p }) :=
    Engine.after_eq_engine _ _
  have hbehind : e.tree.Obeys rules {p | p ∈ Table.twoPly.places} := hafter ▸ houtcome.obeys hobeys hwithin
  have hunset : ∀ slot, e.tree.utility? slot = none := by
    intro slot
    rw [hafter, houtcome.utility?_eq]
    cases he : Tree.entry? (Tree.ofRoot p : Tree Place Float) slot with
    | none => simp [Tree.utility?, he]
    | some entry => simp [Tree.utility?, he, hall he]
  have hlive : root < e.tree.size := by
    obtain ⟨entry, hentry, _⟩ := (hafter ▸ (houtcome.inStep_grows hstep).2).stays hroot
    exact Tree.lt_size hentry
  obtain ⟨results, last, _, hpulls, _, _, hnodup, _, hlast, _⟩ := hsettled hunset hlive (by
    intro slot entry _ hentry hopen _
    have hplace : entry.position ∈ Table.twoPly.places := hbehind.position hentry
    simp only [Table.twoPly, List.mem_cons, List.not_mem_nil, or_false] at hplace
    rcases hplace with hp | hp | hp | hp | hp <;> rw [hp] at hopen ⊢ <;> first | rfl | cases hopen)
  exact ⟨results, last, hpulls, hnodup, hlast⟩

end SearchLab.Game.Session
