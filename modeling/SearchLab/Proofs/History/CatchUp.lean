import Mathlib.Data.List.Nodup
import SearchLab.Proofs.Edit
import SearchLab.Proofs.History.Turns

/-!
# What a log says about its target

A log is used by adding commands, by moving `current` about and by catching up, in any order. It stays sound
under all of that: a catch-up that fails half way leaves a log from which the next operation may go on.

* `Sound.run` — every operation keeps a log sound;
* `target_follows_log` — what a log that started empty says about its target, and what a catch-up does and tells.
-/

namespace SearchLab

/-- The place and the direction of what a catch-up tells. -/
def Touched.key (x : Touched) : Nat × Direction := (x.index, x.direction)

namespace Log

open Reversible

variable {β σ : Type} [Reversible β σ]

/-! ## Adding commands and moving about -/

omit [Reversible β σ] in
/-- The commands at places in a row, each with its place. -/
theorem filterMap_range'_eq_zip {commands : Array (Command β)} {first count : Nat}
    (h : first + count ≤ commands.size) :
    (List.range' first count).filterMap (fun i => commands[i]?.map fun c => (i, c)) =
      (List.range' first count).zip ((commands.toList.drop first).take count) := by
  induction count generalizing first with
  | zero => simp
  | succ count ih =>
      have hlt : first < commands.size := by omega
      have hdrop : commands.toList.drop first = commands[first] :: commands.toList.drop (first + 1) := by
        rw [← Array.getElem_toList hlt]
        exact List.drop_eq_getElem_cons (by simpa using hlt)
      rw [List.range'_succ, hdrop, List.take_succ_cons, List.zip_cons_cons, List.filterMap_cons,
        Array.getElem?_eq_getElem hlt, Option.map_some, ih (by omega)]

/-- What a truncation cuts off and keeps aside: the commands that are done behind `current`. -/
theorem detached_truncate {origin t : σ} {log : Log β} (h : Sound origin log t) :
    log.truncate.detached =
      log.detached ++
        ((List.range' log.current (log.executed - log.current)).zip
          ((log.commands.toList.drop log.current).take (log.executed - log.current))).reverse := by
  have hbound : log.current + (log.executed - log.current) ≤ log.commands.size := by
    have h₁ : log.current ≤ log.commands.size := h.current_le
    have h₂ : log.executed ≤ log.commands.size := h.executed_le
    omega
  rw [truncate, ← filterMap_range'_eq_zip hbound]

/-- A truncation changes no command that is done, and not the order in which they stand. -/
theorem standing_truncate {origin t : σ} {log : Log β} (h : Sound origin log t) :
    log.truncate.standing = log.standing := by
  have hsize : log.commands.toList.length = log.size := by simp [size]
  have h₁ := h.current_le
  have h₂ := h.executed_le
  have hzip : (((List.range' log.current (log.executed - log.current)).zip
      ((log.commands.toList.drop log.current).take (log.executed - log.current))).map Prod.snd) =
        (log.commands.toList.drop log.current).take (log.executed - log.current) :=
    List.map_snd_zip (by rw [List.length_take, List.length_range']; exact Nat.min_le_left _ _)
  have hkept : log.truncate.commands.toList.take log.truncate.executed =
      log.commands.toList.take (min log.executed log.current) := by
    simp [truncate, List.take_take]
  rw [standing, hkept, detached_truncate h, standing, List.map_append, List.map_reverse, hzip,
    List.reverse_append, List.reverse_reverse, ← List.append_assoc]
  congr 1
  rcases Nat.le_total log.executed log.current with hle | hle
  · simp [hle]
  · rw [Nat.min_eq_right hle, ← List.take_add, Nat.add_sub_cancel' hle]

theorem Sound.truncate {origin t : σ} {log : Log β} (h : Sound origin log t) :
    Sound origin log.truncate t := by
  have h₁ : log.current ≤ log.commands.size := h.current_le
  have h₂ : log.executed ≤ log.commands.size := h.executed_le
  have hsize : log.truncate.size = log.current := by
    simp [size, Log.truncate, h₁]
  have hmem : ∀ d ∈ log.truncate.detached, d ∈ log.detached ∨
      (log.current ≤ d.1 ∧ d.1 < log.executed ∧ log.commands[d.1]? = some d.2) := by
    intro d hd
    simp only [Log.truncate, List.mem_append, List.mem_reverse, List.mem_filterMap, List.mem_range'_1,
      Option.map_eq_some_iff] at hd
    rcases hd with hd | ⟨i, hi, c, hc, rfl⟩
    · exact .inl hd
    · exact .inr ⟨hi.1, by omega, hc⟩
  refine ⟨by rw [hsize]; exact Nat.le_refl _, by rw [hsize]; exact Nat.min_le_right _ _, ?_, ?_, ?_, ?_, ?_⟩
  · intro i c hget
    simp only [Log.truncate, Array.getElem?_extract] at hget
    split at hget
    · rw [Nat.zero_add] at hget
      rw [h.done_iff hget]
      show i < log.executed ↔ i < min log.executed log.current
      omega
    · cases hget
  · intro d hd
    rcases hmem d hd with hd | ⟨_, hlt, hc⟩
    · exact h.detached_done d hd
    · exact (h.done_iff hc).mpr hlt
  · rw [detached_truncate h, List.map_append, List.map_reverse, List.map_fst_zip (by simp; omega),
      List.pairwise_append]
    refine ⟨h.detached_falling, ?_, ?_⟩
    · rw [List.pairwise_reverse]
      exact List.pairwise_lt_range'
    · intro i hi j hj
      obtain ⟨d, hd, rfl⟩ := List.mem_map.mp hi
      have hbeyond := h.detached_beyond d hd
      have hj' := List.mem_range'_1.mp (List.mem_reverse.mp hj)
      omega
  · intro d hd
    show min log.executed log.current ≤ d.1
    rcases hmem d hd with hd | ⟨hle, _, _⟩
    · have := h.detached_beyond d hd
      omega
    · omega
  · rw [standing_truncate h]
    exact h.leads

theorem Sound.add {origin t : σ} {log : Log β} (h : Sound origin log t) (name : String) (body : β) :
    Sound origin (log.add { name, body }) t := by
  have hcut := h.truncate
  have h₁ : log.current ≤ log.commands.size := h.current_le
  have hsize : log.truncate.commands.size = log.current := by
    simp [Log.truncate, h₁]
  have hexecuted : log.truncate.executed ≤ log.current := Nat.min_le_right _ _
  refine ⟨?_, ?_, ?_, hcut.detached_done, hcut.detached_falling, hcut.detached_beyond, ?_⟩
  · show log.current + 1 ≤ (log.truncate.commands.push _).size
    simp [hsize]
  · simp only [Log.add, size, Array.size_push, hsize]
    omega
  · intro i c hget
    simp only [Log.add, Array.getElem?_push, hsize] at hget
    split at hget
    · rename_i hi
      cases hget
      simp only [Log.add, hi]
      constructor
      · intro hdone
        cases hdone
      · omega
    · exact hcut.done_iff hget
  · have hstanding : (log.add { name, body }).standing = log.truncate.standing := by
      simp only [standing, Log.add, Array.toList_push]
      rw [List.take_append_of_le_length (by simpa [hsize] using hexecuted)]
    rw [hstanding]
    exact hcut.leads

/-- Only what must be done changes when `current` moves. -/
theorem Sound.move {origin t : σ} {log : Log β} (h : Sound origin log t) {current : Nat}
    (hle : current ≤ log.size) : Sound origin { log with current } t :=
  { h with current_le := hle }

/-! ## Catching up -/

/-- What was put aside is taken back from the front. -/
theorem Sound.revertAllDetached (hfaithful : Faithful β σ) {origin t : σ} {log : Log β}
    (h : Sound origin log t) :
    match times Log.revertDetached log.detached.length (log, t) with
    | .ok xs (log', t') =>
      Turns (log, t) xs (log', t') ∧ Sound origin log' t' ∧ log' = { log with detached := [] } ∧
        xs = log.detachedDue
    | .error e (log', t') => Sound origin log' t' ∧ ∃ xs m, Turns (log, t) xs m ∧ Fails m e := by
  have hall := Sound.of_times Log.revertDetached
    (fun n log' => { log' with detached := log.detached } = log ∧ log'.detached.length = n)
    (fun _ log' => log'.detachedDue) ?nothing ?step log.detached.length h ⟨rfl, rfl⟩
  case nothing =>
    rintro log' ⟨-, hlength⟩
    simp [detachedDue, List.length_eq_zero_iff.mp hlength]
  case step =>
    rintro n log₁ t₁ hsound ⟨hsame, hlength⟩
    have hturn := hsound.revertDetached hfaithful (List.ne_nil_of_length_eq_add_one hlength)
    cases hrun : Log.revertDetached (log₁, t₁) with
    | error e s => rw [hrun] at hturn; exact hturn
    | ok x s =>
        rw [hrun] at hturn
        obtain ⟨hturn, hsound', hrest, hdue⟩ := hturn
        refine ⟨hturn, hsound', ⟨?_, ?_⟩, hdue⟩
        · rw [← hsame, ← hrest]
        · have := congrArg List.length hdue
          simp only [detachedDue, List.length_map, List.length_cons] at this
          omega
  cases hrun : times Log.revertDetached log.detached.length (log, t) with
  | error e s => rw [hrun] at hall; exact hall
  | ok xs s =>
      rw [hrun] at hall
      obtain ⟨hturns, hsound, ⟨hsame, hlength⟩, hxs⟩ := hall
      have hempty : s.1.detached = [] := List.length_eq_zero_iff.mp hlength
      refine ⟨hturns, hsound, ?_, hxs⟩
      rw [← hsame, ← hempty]

/-- The commands between `executed` and `current` are done in order. -/
theorem Sound.executeAll (hfaithful : Faithful β σ) {origin t : σ} {log : Log β} (h : Sound origin log t)
    (hnone : log.detached = []) (hle : log.executed ≤ log.current) :
    match times Log.executeNext (log.current - log.executed) (log, t) with
    | .ok xs (log', t') =>
      Turns (log, t) xs (log', t') ∧ Sound origin log' t' ∧
        (log'.detached = [] ∧ log'.current = log.current ∧ log'.executed = log.current ∧
          log'.touching = log.touching) ∧
        xs = (List.range' log.executed (log.current - log.executed)).filterMap (log.touching .executed)
    | .error e (log', t') => Sound origin log' t' ∧ ∃ xs m, Turns (log, t) xs m ∧ Fails m e := by
  refine Sound.of_times _
    (fun n log' => log'.detached = [] ∧ log'.current = log.current ∧ log'.executed + n = log.current ∧
      log'.touching = log.touching)
    (fun n log' => (List.range' log'.executed n).filterMap (log.touching .executed)) (by simp) ?step
    (log.current - log.executed) h ⟨hnone, rfl, by omega, rfl⟩
  rintro n log₁ t₁ hsound ⟨hdetached, hcurrent, hcount, htouching⟩
  have hturn := hsound.executeNext hfaithful hdetached (by have := hsound.current_le; omega)
  cases hrun : Log.executeNext (log₁, t₁) with
  | error e s => rw [hrun] at hturn; exact hturn
  | ok x s =>
      rw [hrun] at hturn
      obtain ⟨hturn, hsound', hdetached', hcurrent', hexecuted, htouching', hx⟩ := hturn
      refine ⟨hturn, hsound', ⟨hdetached', by rw [hcurrent', hcurrent], by omega, by rw [htouching', htouching]⟩, ?_⟩
      rw [htouching] at hx
      rw [List.range'_succ, List.filterMap_cons, hx, hexecuted]

/-- The commands between `current` and `executed` are taken back, the last one first. -/
theorem Sound.revertAll (hfaithful : Faithful β σ) {origin t : σ} {log : Log β} (h : Sound origin log t)
    (hnone : log.detached = []) (hle : log.current ≤ log.executed) :
    match times Log.revertLast (log.executed - log.current) (log, t) with
    | .ok xs (log', t') =>
      Turns (log, t) xs (log', t') ∧ Sound origin log' t' ∧
        (log'.detached = [] ∧ log'.current = log.current ∧ log'.executed = log.current ∧
          log'.touching = log.touching) ∧
        xs = (List.range' log.current (log.executed - log.current)).reverse.filterMap (log.touching .reverted)
    | .error e (log', t') => Sound origin log' t' ∧ ∃ xs m, Turns (log, t) xs m ∧ Fails m e := by
  refine Sound.of_times _
    (fun n log' => log'.detached = [] ∧ log'.current = log.current ∧ log'.executed = log.current + n ∧
      log'.touching = log.touching)
    (fun n _ => (List.range' log.current n).reverse.filterMap (log.touching .reverted)) (by simp) ?step
    (log.executed - log.current) h ⟨hnone, rfl, by omega, rfl⟩
  rintro n log₁ t₁ hsound ⟨hdetached, hcurrent, hcount, htouching⟩
  have hturn := hsound.revertLast hfaithful hdetached (by omega)
  cases hrun : Log.revertLast (log₁, t₁) with
  | error e s => rw [hrun] at hturn; exact hturn
  | ok x s =>
      rw [hrun] at hturn
      obtain ⟨hturn, hsound', hdetached', hcurrent', hexecuted, htouching', hx⟩ := hturn
      have hplace : s.1.executed = log.current + n := by omega
      refine ⟨hturn, hsound', ⟨hdetached', by rw [hcurrent', hcurrent], hplace, by rw [htouching', htouching]⟩, ?_⟩
      rw [htouching, hplace] at hx
      rw [List.range'_concat, List.reverse_append, List.reverse_singleton, List.singleton_append,
        List.filterMap_cons, Nat.one_mul, hx]

/-- With nothing put aside, one of the two loops over the log itself has nothing to do. -/
theorem Sound.reachCurrent (hfaithful : Faithful β σ) {origin t : σ} {log : Log β} (h : Sound origin log t)
    (hnone : log.detached = []) :
    let edit : Edit (Log β × σ) (List Touched) := do
      let done ← times Log.executeNext (log.current - log.executed)
      let undone ← times Log.revertLast (log.executed - log.current)
      return done ++ undone
    match edit (log, t) with
    | .ok xs (log', t') =>
      Turns (log, t) xs (log', t') ∧ Sound origin log' t' ∧
        (log'.detached = [] ∧ log'.current = log.current ∧ log'.executed = log.current ∧
          log'.touching = log.touching) ∧
        xs = log.cursorDue
    | .error e (log', t') => Sound origin log' t' ∧ ∃ xs m, Turns (log, t) xs m ∧ Fails m e := by
  intro edit
  rcases Nat.le_total log.executed log.current with hle | hle
  · have hforward := h.executeAll hfaithful hnone hle
    have hno : log.executed - log.current = 0 := by omega
    simp only [edit, hno, Log.times, bind, EStateM.bind, pure, EStateM.pure]
    cases hrun : times Log.executeNext (log.current - log.executed) (log, t) with
    | error e s => rw [hrun] at hforward; exact hforward
    | ok xs s => rw [hrun] at hforward; simpa [cursorDue, hno] using hforward
  · have hbackward := h.revertAll hfaithful hnone hle
    have hno : log.current - log.executed = 0 := by omega
    simp only [edit, hno, Log.times, bind, EStateM.bind, pure, EStateM.pure]
    cases hrun : times Log.revertLast (log.executed - log.current) (log, t) with
    | error e s => rw [hrun] at hbackward; exact hbackward
    | ok xs s => rw [hrun] at hbackward; simpa [cursorDue, hno] using hbackward

/-- A catch-up brings the log to `current` and tells what was due, or stops at a command whose body failed. -/
theorem Sound.catchUp (hfaithful : Faithful β σ) {origin t : σ} {log : Log β} (h : Sound origin log t) :
    match Log.catchUp (log, t) with
    | .ok xs (log', t') =>
      Turns (log, t) xs (log', t') ∧ Sound origin log' t' ∧
        (log'.detached = [] ∧ log'.current = log.current ∧ log'.executed = log.current ∧
          log'.touching = log.touching) ∧
        xs = log.detachedDue ++ log.cursorDue
    | .error e (log', t') => Sound origin log' t' ∧ ∃ xs m, Turns (log, t) xs m ∧ Fails m e := by
  have hdropped := h.revertAllDetached hfaithful
  simp only [Log.catchUp, bind, EStateM.bind, pure, EStateM.pure]
  cases hrun : times Log.revertDetached log.detached.length (log, t) with
  | error e s => rw [hrun] at hdropped; exact hdropped
  | ok xs s =>
      obtain ⟨log₁, t₁⟩ := s
      rw [hrun] at hdropped
      obtain ⟨hturns, hsound, hlog₁, hxs⟩ := hdropped
      have hcursor := hsound.reachCurrent hfaithful (by rw [hlog₁])
      simp only [hlog₁, bind, EStateM.bind, pure, EStateM.pure] at hcursor ⊢
      cases hdone : times Log.executeNext (log.current - log.executed) ({ log with detached := [] }, t₁) with
      | error e s =>
          simp only [hdone] at hcursor ⊢
          obtain ⟨hsound', ys, m, hturns', hfails⟩ := hcursor
          exact ⟨hsound', xs ++ ys, m, (hlog₁ ▸ hturns).append hturns', hfails⟩
      | ok ys s =>
          simp only [hdone] at hcursor ⊢
          cases hundone : times Log.revertLast (log.executed - log.current) s with
          | error e s =>
              simp only [hundone] at hcursor ⊢
              obtain ⟨hsound', zs, m, hturns', hfails⟩ := hcursor
              exact ⟨hsound', xs ++ zs, m, (hlog₁ ▸ hturns).append hturns', hfails⟩
          | ok zs s =>
              simp only [hundone] at hcursor ⊢
              obtain ⟨hturns', hsound', hplace, hyzs⟩ := hcursor
              refine ⟨?_, hsound', hplace, ?_⟩
              · rw [List.append_assoc]
                exact (hlog₁ ▸ hturns).append hturns'
              · rw [List.append_assoc, hyzs, hxs]
                rfl

/-! ## All operations -/

/-- An operation on a log. What is added is a command that was never done. -/
inductive Operation (β : Type) where
  | add (name : String) (body : β)
  | undo
  | redo
  | seek (position : Nat)
  | catchUp

/-- The log and the target behind an operation, whether it fails or not. -/
def Operation.run (s : Log β × σ) : Operation β → Log β × σ
  | .add name body => (s.1.add { name, body }, s.2)
  | .undo => (Edit.after Log.undo s.1, s.2)
  | .redo => (Edit.after Log.redo s.1, s.2)
  | .seek position => (Edit.after (Log.seek position) s.1, s.2)
  | .catchUp => Edit.after Log.catchUp s

/-- An empty log and its target behind some operations. -/
def runAll (origin : σ) (operations : List (Operation β)) : Log β × σ :=
  operations.foldl Operation.run ({}, origin)

theorem Sound.run (hfaithful : Faithful β σ) {origin : σ} {s : Log β × σ} (h : Sound origin s.1 s.2)
    (operation : Operation β) : Sound origin (operation.run s).1 (operation.run s).2 := by
  cases operation with
  | add name body => exact h.add name body
  | undo =>
      simp only [Operation.run, Edit.after, Log.undo]
      split <;> rename_i heq <;> split at heq <;> cases heq
      · exact h.move (by have := h.current_le; omega)
      · exact h
  | redo =>
      simp only [Operation.run, Edit.after, Log.redo]
      split <;> rename_i heq <;> split at heq <;> cases heq
      · rename_i hredo
        have hlt : s.1.current < s.1.size := by simpa [canRedo] using hredo
        exact h.move hlt
      · exact h
  | seek position =>
      simp only [Operation.run, Edit.after, Log.seek]
      split <;> rename_i heq <;> split at heq <;> cases heq
      · rename_i hbound
        exact h.move (by omega)
      · exact h
  | catchUp =>
      have hcatch := h.catchUp hfaithful
      simp only [Operation.run, Edit.after]
      cases hrun : Log.catchUp (s.1, s.2) with
      | ok xs s' => rw [hrun] at hcatch; exact hcatch.2.1
      | error e s' => rw [hrun] at hcatch; exact hcatch.1

/-- An empty log has nothing to say about its target. -/
theorem sound_empty (origin : σ) : Sound origin ({} : Log β) origin :=
  { current_le := Nat.le_refl _
    executed_le := Nat.le_refl _
    done_iff := by intro i c h; simp at h
    detached_done := by simp
    detached_falling := by simp
    detached_beyond := by simp
    leads := rfl }

theorem sound_runAll (hfaithful : Faithful β σ) (origin : σ) (operations : List (Operation β)) :
    Sound origin (runAll origin operations).1 (runAll origin operations).2 := by
  have hall : ∀ s : Log β × σ, Sound origin s.1 s.2 →
      Sound origin (operations.foldl Operation.run s).1 (operations.foldl Operation.run s).2 := by
    induction operations with
    | nil => exact fun _ h => h
    | cons operation rest ih => exact fun s h => ih _ (h.run hfaithful operation)
  exact hall _ (sound_empty origin)

/-! ## What a catch-up tells -/

omit [Reversible β σ] in
/-- What is told of some places in one direction carries those places, each at most once. -/
theorem keys_touching_sublist (log : Log β) (direction : Direction) (places : List Nat) :
    ((places.filterMap (log.touching direction)).map Touched.key).Sublist
      (places.map fun i => (i, direction)) := by
  induction places with
  | nil => exact List.Sublist.refl _
  | cons i rest ih =>
      cases hget : log.commands[i]? with
      | none => simpa [touching, hget] using ih.cons (i, direction)
      | some c => simpa [touching, hget, Touched.key] using ih

omit [Reversible β σ] in
theorem nodup_places (direction : Direction) {places : List Nat} (h : places.Nodup) :
    (places.map fun i => (i, direction)).Nodup :=
  h.map fun _ _ hij => (Prod.mk.inj hij).1

/-- No command is told of twice: what was put aside lay behind `executed`, and the log's own commands are run in
one direction only. -/
theorem Sound.nodup_due {origin t : σ} {log : Log β} (h : Sound origin log t) :
    ((log.detachedDue ++ log.cursorDue).map Touched.key).Nodup := by
  have hfirst := keys_touching_sublist log .executed (List.range' log.executed (log.current - log.executed))
  have hsecond :=
    keys_touching_sublist log .reverted (List.range' log.current (log.executed - log.current)).reverse
  have hdetached : (log.detachedDue.map Touched.key) =
      (log.detached.map Prod.fst).map fun i => (i, Direction.reverted) := by
    simp [detachedDue, Touched.key]
  rw [List.map_append, cursorDue, List.map_append, List.nodup_append, List.nodup_append]
  refine ⟨?_, ⟨?_, ?_, ?_⟩, ?_⟩
  · rw [hdetached]
    exact nodup_places _ (h.detached_falling.imp fun hgt => Nat.ne_of_gt hgt)
  · exact hfirst.nodup (nodup_places _ List.nodup_range')
  · exact hsecond.nodup (nodup_places _ (List.nodup_reverse.mpr List.nodup_range'))
  · intro x hx y hy hxy
    obtain ⟨i, -, rfl⟩ := List.mem_map.mp (hfirst.subset hx)
    obtain ⟨j, -, rfl⟩ := List.mem_map.mp (hsecond.subset hy)
    simp at hxy
  · intro x hx y hy hxy
    rw [hdetached] at hx
    obtain ⟨i, hi, rfl⟩ := List.mem_map.mp hx
    obtain ⟨d, hd, rfl⟩ := List.mem_map.mp hi
    have hbeyond := h.detached_beyond d hd
    rcases List.mem_append.mp hy with hy | hy
    · obtain ⟨j, -, rfl⟩ := List.mem_map.mp (hfirst.subset hy)
      simp at hxy
    · obtain ⟨j, hj, rfl⟩ := List.mem_map.mp (hsecond.subset hy)
      have hj' := List.mem_range'_1.mp (List.mem_reverse.mp hj)
      have hij : d.1 = j := (Prod.mk.inj hxy).1
      omega

omit [Reversible β σ] in
/-- What is told of the log's own commands is told of those between `executed` and `current`. -/
theorem mem_cursorDue {log : Log β} {i : Nat} {c : Command β} (hc : log.commands[i]? = some c) :
    (∃ direction, ⟨i, c.name, direction⟩ ∈ log.cursorDue) ↔
      ¬ (i < log.executed ↔ i < log.current) := by
  have htouching : ∀ d j, log.touching d j = some ⟨i, c.name, d⟩ ↔ j = i := by
    intro d j
    constructor
    · intro h
      obtain ⟨c', -, h'⟩ := Option.map_eq_some_iff.mp h
      exact congrArg Touched.index h'
    · rintro rfl
      simp [touching, hc]
  constructor
  · rintro ⟨d, hmem⟩
    rcases List.mem_append.mp hmem with hmem | hmem
    · obtain ⟨j, hj, hx⟩ := List.mem_filterMap.mp hmem
      obtain ⟨c', -, h'⟩ := Option.map_eq_some_iff.mp hx
      have hij : j = i := congrArg Touched.index h'
      have := List.mem_range'_1.mp hj
      omega
    · obtain ⟨j, hj, hx⟩ := List.mem_filterMap.mp hmem
      obtain ⟨c', -, h'⟩ := Option.map_eq_some_iff.mp hx
      have hij : j = i := congrArg Touched.index h'
      have := List.mem_range'_1.mp (List.mem_reverse.mp hj)
      omega
  · intro hbetween
    by_cases hi : i < log.executed
    · refine ⟨.reverted, List.mem_append.mpr (.inr (List.mem_filterMap.mpr ⟨i, ?_, (htouching _ i).mpr rfl⟩))⟩
      rw [List.mem_reverse, List.mem_range'_1]
      omega
    · refine ⟨.executed, List.mem_append.mpr (.inl (List.mem_filterMap.mpr ⟨i, ?_, (htouching _ i).mpr rfl⟩))⟩
      rw [List.mem_range'_1]
      omega

/-- A log that started empty and its target, behind any operations, in which the bodies of commands take back
what they did and leave the target alone when they fail. The done commands are those before `executed` and those
put aside; they made the target what it is, the latter on top. A catch-up fails only with an error of a body.
One that succeeds reaches `current`, leaves the target with the commands before it and nothing else, and tells
what it ran, turn by turn, no command twice. -/
theorem target_follows_log (hfaithful : Faithful β σ) (origin : σ) (operations : List (Operation β)) :
    let s := runAll origin operations
    let log := s.1
    (log.current ≤ log.size ∧ log.executed ≤ log.size) ∧
    (∀ i c, log.commands[i]? = some c → (c.done = true ↔ i < log.executed)) ∧
    (∀ d ∈ log.detached, d.2.done = true) ∧
    Leads origin log.standing s.2 ∧
    (∀ effect, Describes effect →
      s.2 = log.standing.foldl (fun (t : σ) (c : Command β) => effect c.body t) origin) ∧
    match Log.catchUp s with
    | .error e _ => ∃ xs m, Turns s xs m ∧ Fails m e
    | .ok xs (log', target) =>
      log'.executed = log'.current ∧ log'.current = log.current ∧ log'.detached = [] ∧
      Leads origin (log'.commands.toList.take log'.current) target ∧
      (∀ effect, Describes effect →
        target = (log'.commands.toList.take log'.current).foldl
          (fun (t : σ) (c : Command β) => effect c.body t) origin) ∧
      Turns s xs (log', target) ∧ xs = log.detachedDue ++ log.cursorDue ∧ (xs.map Touched.key).Nodup ∧
      ∀ i c c', log.commands[i]? = some c → log'.commands[i]? = some c' →
        c'.name = c.name ∧ (c'.done ≠ c.done ↔ ∃ direction, ⟨i, c.name, direction⟩ ∈ log.cursorDue) := by
  intro s log
  have h : Sound origin log s.2 := sound_runAll hfaithful origin operations
  refine ⟨⟨h.current_le, h.executed_le⟩, fun i c => h.done_iff, h.detached_done, h.leads,
    fun effect heffect => h.leads.eq_foldl heffect, ?_⟩
  have hcatch := h.catchUp hfaithful
  cases hrun : Log.catchUp s with
  | error e s' =>
      rw [show (log, s.2) = s from rfl, hrun] at hcatch
      exact hcatch.2
  | ok xs s' =>
      obtain ⟨log', target⟩ := s'
      rw [show (log, s.2) = s from rfl, hrun] at hcatch
      obtain ⟨hturns, hsound, ⟨hdetached, hcurrent, hexecuted, htouching⟩, hxs⟩ := hcatch
      have hleads : Leads origin (log'.commands.toList.take log'.current) target := by
        have := hsound.leads
        simpa [standing, hdetached, hexecuted, hcurrent] using this
      refine ⟨by rw [hexecuted, hcurrent], hcurrent, hdetached, hleads,
        fun effect heffect => hleads.eq_foldl heffect, hturns, hxs, hxs ▸ h.nodup_due, ?_⟩
      intro i c c' hc hc'
      have hname := congrFun (congrFun htouching .executed) i
      simp only [touching, hc, hc', Option.map_some, Option.some.injEq, Touched.mk.injEq, true_and,
        and_true] at hname
      refine ⟨hname, ?_⟩
      have hbefore := h.done_iff hc
      have hafter := hsound.done_iff hc'
      rw [hexecuted] at hafter
      rw [mem_cursorDue hc, ← hbefore, ← hafter]
      cases c.done <;> cases c'.done <;> simp

/-- A shift of a counter that refuses to be done as often as `refusals` says. -/
structure Shift where
  amount : Int
  refusals : Nat := 0

instance : Reversible Shift Int where
  apply := fun (b, t) =>
    if b.refusals = 0 then .ok () (b, t + b.amount)
    else .error (.raised .script "not yet") ({ b with refusals := b.refusals - 1 }, t)
  revert := fun (b, t) => .ok () (b, t - b.amount)

theorem describes_shift : Describes fun (b : Shift) (t : Int) => t + b.amount := by
  intro b before after h
  induction h with
  | @applied b body before after happly =>
      simp only [Reversible.apply] at happly
      split at happly <;> cases happly
      rfl
  | refused _ hrevert _ => cases hrevert

theorem faithful_shift : Faithful Shift Int where
  apply_failed := by
    intro b body before after e h
    simp only [Reversible.apply] at h
    split at h <;> cases h
    rfl
  revert_undoes := by
    intro b body before after target hheld h
    cases h
    rw [describes_shift hheld]
    exact Int.add_sub_cancel _ _
  revert_failed := by
    intro b body before after target e _ h
    cases h

/-- A command that is done is cut off, and the one in its place refuses at first. -/
theorem target_follows_log_of_shifts :
    let operations : List (Operation Shift) :=
      [.add "two" ⟨2, 0⟩, .add "five" ⟨5, 0⟩, .catchUp, .undo, .add "one" ⟨1, 1⟩, .catchUp]
    Faithful Shift Int ∧
      (runAll (0 : Int) operations).2 =
        (runAll (0 : Int) operations).1.standing.foldl (fun t c => t + c.body.amount) 0 ∧
      (runAll (0 : Int) operations).2 = 2 :=
  ⟨faithful_shift, (target_follows_log faithful_shift 0 _).2.2.2.2.1 _ describes_shift, by decide⟩

end Log

end SearchLab
