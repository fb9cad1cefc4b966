import SearchLab.Proofs.History.Chain

/-!
# Turns of a catch-up

A catch-up runs one command at a time. The target is what it was at the start, changed by the commands that are
done: those before `executed`, and on top of them those that were cut off. `Sound` is that statement about a log
and its target, and a turn keeps it, whether the command that it runs succeeds or fails.

* `Sound.revertDetached`, `Sound.executeNext`, `Sound.revertLast` — the three kinds of turns;
* `Sound.of_times` — turns of one kind in a row.
-/

namespace SearchLab.Log

open Reversible

variable {β σ : Type}

/-- The commands that are done, in the order in which they changed the target. -/
def standing (log : Log β) : List (Command β) :=
  log.commands.toList.take log.executed ++ (log.detached.map Prod.snd).reverse

/-- What a catch-up tells of the command at a place in the log, if it runs it in a direction. -/
def touching (log : Log β) (direction : Direction) (index : Nat) : Option Touched :=
  log.commands[index]?.map fun c => ⟨index, c.name, direction⟩

/-- What a catch-up tells of the commands that were put aside. -/
def detachedDue (log : Log β) : List Touched :=
  log.detached.map fun d => ⟨d.1, d.2.name, .reverted⟩

/-- What a catch-up tells of the commands between `executed` and `current`: done from the first one on, or taken
back from the last one on. -/
def cursorDue (log : Log β) : List Touched :=
  (List.range' log.executed (log.current - log.executed)).filterMap (log.touching .executed) ++
    (List.range' log.current (log.executed - log.current)).reverse.filterMap (log.touching .reverted)

variable [Reversible β σ]

/-- A log agrees with its target, which started as `origin`. -/
structure Sound (origin : σ) (log : Log β) (target : σ) : Prop where
  current_le : log.current ≤ log.size
  executed_le : log.executed ≤ log.size
  done_iff : ∀ {i : Nat} {c : Command β}, log.commands[i]? = some c → (c.done = true ↔ i < log.executed)
  detached_done : ∀ d ∈ log.detached, d.2.done = true
  /-- What was put aside lay behind all that is done still, the later command in front. -/
  detached_falling : (log.detached.map Prod.fst).Pairwise (· > ·)
  detached_beyond : ∀ d ∈ log.detached, log.executed ≤ d.1
  leads : Leads origin log.standing target

/-- One command changes sides: what a single turn of a catch-up does to log and target, and what it tells. -/
inductive Turn : Log β × σ → Touched → Log β × σ → Prop
  | putBack {log : Log β} {t t' : σ} {index : Nat} {c : Command β} {body : β}
      {rest : List (Nat × Command β)} (hfront : log.detached = (index, c) :: rest) (hdone : c.done = true)
      (hrevert : Reversible.revert (c.body, t) = .ok () (body, t')) :
      Turn (log, t) ⟨index, c.name, .reverted⟩ ({ log with detached := rest }, t')
  | forward {log : Log β} {t t' : σ} {c : Command β} {body : β}
      (hnext : log.commands[log.executed]? = some c) (hdone : c.done = false)
      (happly : Reversible.apply (c.body, t) = .ok () (body, t')) :
      Turn (log, t) ⟨log.executed, c.name, .executed⟩
        ({ log with
            commands := log.commands.setIfInBounds log.executed { c with body, done := true }
            executed := log.executed + 1 }, t')
  | backward {log : Log β} {t t' : σ} {index : Nat} {c : Command β} {body : β}
      (hlast : log.executed = index + 1) (hcommand : log.commands[index]? = some c) (hdone : c.done = true)
      (hrevert : Reversible.revert (c.body, t) = .ok () (body, t')) :
      Turn (log, t) ⟨index, c.name, .reverted⟩
        ({ log with
            commands := log.commands.setIfInBounds index { c with body, done := false }
            executed := index }, t')

/-- Turns in a row, with what they tell in order. -/
inductive Turns : Log β × σ → List Touched → Log β × σ → Prop
  | nil (s : Log β × σ) : Turns s [] s
  | cons {s m f : Log β × σ} {x : Touched} {xs : List Touched} (hturn : Turn s x m) (htail : Turns m xs f) :
      Turns s (x :: xs) f

theorem Turns.append {s m f : Log β × σ} {xs ys : List Touched} (hleft : Turns s xs m) (hright : Turns m ys f) :
    Turns s (xs ++ ys) f := by
  induction hleft with
  | nil => exact hright
  | cons hturn _ ih => exact .cons hturn (ih hright)

/-- A command of a log, or one that was put aside, raises an error of its own on the target. -/
def Fails (s : Log β × σ) (e : Error) : Prop :=
  ∃ c ∈ s.1.commands.toList ++ s.1.detached.map Prod.snd, Raises c.body s.2 e

/-- A single turn succeeds as a turn, of whose outcome `Q` holds, or fails because the body that it ran did. The
log stays sound in both cases. -/
def Advances (origin : σ) (log : Log β) (t : σ) (Q : Log β → Touched → Prop) :
    EStateM.Result Error (Log β × σ) Touched → Prop
  | .ok x (log', t') => Turn (log, t) x (log', t') ∧ Sound origin log' t' ∧ Q log' x
  | .error e (log', t') => Sound origin log' t' ∧ Fails (log, t) e

theorem Sound.revertDetached (hfaithful : Faithful β σ) {origin t : σ} {log : Log β}
    (h : Sound origin log t) (hsome : log.detached ≠ []) :
    Advances origin log t
      (fun log' x => { log' with detached := log.detached } = log ∧ log.detachedDue = x :: log'.detachedDue)
      (revertDetached (log, t)) := by
  obtain ⟨⟨index, c⟩, rest, hfront⟩ := List.exists_cons_of_ne_nil hsome
  have hdone : c.done = true := h.detached_done (index, c) (by simp [hfront])
  have hleads := h.leads
  simp only [standing, hfront, List.map_cons, List.reverse_cons, ← List.append_assoc] at hleads
  obtain ⟨before, hbelow, hheld⟩ := leads_concat.mp hleads
  have hfalling := h.detached_falling
  simp only [hfront, List.map_cons, List.pairwise_cons] at hfalling
  have hrest : ∀ d ∈ rest, d ∈ log.detached := fun d hd => by simp [hfront, hd]
  simp only [Log.revertDetached, hfront, Command.revert_of_done hdone]
  cases hrun : Reversible.revert (c.body, t) with
  | ok _ s =>
      obtain ⟨body, t'⟩ := s
      refine ⟨.putBack hfront hdone hrun, ?_, by rw [← hfront], by simp [detachedDue, hfront]⟩
      have htarget : t' = before := hfaithful.revert_undoes hheld hrun
      exact
        { h with
          detached_done := fun d hd => h.detached_done d (hrest d hd)
          detached_falling := hfalling.2
          detached_beyond := fun d hd => h.detached_beyond d (hrest d hd)
          leads := by rw [htarget]; exact hbelow }
  | error e s =>
      obtain ⟨body, t'⟩ := s
      have htarget : t' = t := hfaithful.revert_failed hheld hrun
      refine ⟨?_, c, by simp [hfront], body, t', .inr hrun⟩
      exact
        { h with
          detached_done := by
            intro d hd
            rcases List.mem_cons.mp hd with rfl | hd
            · exact hdone
            · exact h.detached_done d (hrest d hd)
          detached_falling := by simpa using hfalling
          detached_beyond := by
            intro d hd
            rcases List.mem_cons.mp hd with rfl | hd
            · exact h.detached_beyond (index, c) (by simp [hfront])
            · exact h.detached_beyond d (hrest d hd)
          leads := by
            simp only [standing, List.map_cons, List.reverse_cons, ← List.append_assoc, htarget]
            exact leads_concat.mpr ⟨before, hbelow, .refused hheld hrun⟩ }

/-- Replacing a command leaves the ones before it. -/
theorem take_setIfInBounds {commands : Array (Command β)} {i k : Nat} {c : Command β} (h : k ≤ i) :
    (commands.setIfInBounds i c).toList.take k = commands.toList.take k := by
  rw [Array.toList_setIfInBounds, List.take_set_of_le h]

/-- Up to and with a command that is there, the commands are those before it and it. -/
theorem take_succ_of_getElem? {commands : Array (Command β)} {i : Nat} {c : Command β}
    (h : commands[i]? = some c) :
    commands.toList.take (i + 1) = commands.toList.take i ++ [c] := by
  rw [List.take_add_one, Array.getElem?_toList, h]
  rfl

omit [Reversible β σ] in
/-- What a catch-up tells of a command is its name, which a new state of it does not change. -/
theorem touching_setIfInBounds {log : Log β} {i executed : Nat} {c d : Command β}
    (hc : log.commands[i]? = some c) (hname : d.name = c.name) :
    touching { log with commands := log.commands.setIfInBounds i d, executed } = log.touching := by
  obtain ⟨hi, hget⟩ := Array.getElem?_eq_some_iff.mp hc
  funext direction j
  by_cases hij : i = j
  · subst hij
    simp [touching, hi, hget, hname]
  · simp [touching, hij]

/-- A log with nothing put aside in which one command was replaced is sound if the flag of the new one, the
other flags and the target agree with `executed`. -/
theorem Sound.of_replaced {origin t t' : σ} {log : Log β} {i executed : Nat} {c : Command β}
    (h : Sound origin log t) (hnone : log.detached = []) (hle : executed ≤ log.size)
    (hothers : ∀ j, j ≠ i → (j < log.executed ↔ j < executed)) (hown : c.done = true ↔ i < executed)
    (hleads : Leads origin ((log.commands.setIfInBounds i c).toList.take executed) t') :
    Sound origin { log with commands := log.commands.setIfInBounds i c, executed } t' :=
  { current_le := by simpa [size] using h.current_le
    executed_le := by simpa [size] using hle
    done_iff := by
      intro j d hget
      simp only [Array.getElem?_setIfInBounds] at hget
      by_cases hij : i = j
      · subst hij
        by_cases hi : i < log.commands.size
        · have hcd : c = d := by simpa [hi] using hget
          exact hcd ▸ hown
        · simp [hi] at hget
      · simp only [hij, if_false] at hget
        exact (h.done_iff hget).trans (hothers j (Ne.symm hij))
    detached_done := by simp [hnone]
    detached_falling := by simp [hnone]
    detached_beyond := by simp [hnone]
    leads := by simpa [standing, hnone] using hleads }

theorem Sound.executeNext (hfaithful : Faithful β σ) {origin t : σ} {log : Log β}
    (h : Sound origin log t) (hnone : log.detached = []) (hlt : log.executed < log.size) :
    Advances origin log t
      (fun log' x => log'.detached = [] ∧ log'.current = log.current ∧ log'.executed = log.executed + 1 ∧
        log'.touching = log.touching ∧ log.touching .executed log.executed = some x)
      (executeNext (log, t)) := by
  obtain ⟨c, hc⟩ : ∃ c, log.commands[log.executed]? = some c :=
    ⟨_, Array.getElem?_eq_getElem hlt⟩
  have hdone : c.done = false := by
    have := h.done_iff hc
    simpa using this
  have hleads : Leads origin (log.commands.toList.take log.executed) t := by
    simpa [standing, hnone] using h.leads
  simp only [Log.executeNext, hc, Command.execute_of_not_done hdone]
  cases hrun : Reversible.apply (c.body, t) with
  | ok _ s =>
      obtain ⟨body, t'⟩ := s
      refine ⟨.forward (c := c) hc hdone hrun, ?_, hnone, rfl, rfl, touching_setIfInBounds hc rfl,
        by simp [touching, hc]⟩
      refine h.of_replaced hnone hlt (fun j hj => by omega) (by simp) ?_
      have hnew : (log.commands.setIfInBounds log.executed { c with body, done := true })[log.executed]? =
          some { c with body, done := true } :=
        Array.getElem?_setIfInBounds_self_of_lt hlt
      rw [take_succ_of_getElem? hnew, take_setIfInBounds (Nat.le_refl _)]
      exact leads_concat.mpr ⟨t, hleads, .applied hrun⟩
  | error e s =>
      obtain ⟨body, t'⟩ := s
      have htarget : t' = t := hfaithful.apply_failed hrun
      refine ⟨?_, c, by simp [hnone, Array.mem_of_getElem? hc], body, t', .inl hrun⟩
      refine h.of_replaced hnone h.executed_le (fun _ _ => Iff.rfl) (by simp [hdone]) ?_
      rw [take_setIfInBounds (Nat.le_refl _), htarget]
      exact hleads

theorem Sound.revertLast (hfaithful : Faithful β σ) {origin t : σ} {log : Log β}
    (h : Sound origin log t) (hnone : log.detached = []) (hpos : 0 < log.executed) :
    Advances origin log t
      (fun log' x => log'.detached = [] ∧ log'.current = log.current ∧ log.executed = log'.executed + 1 ∧
        log'.touching = log.touching ∧ log.touching .reverted log'.executed = some x)
      (revertLast (log, t)) := by
  obtain ⟨index, hindex⟩ : ∃ index, log.executed = index + 1 := ⟨log.executed - 1, by omega⟩
  have hlt : index < log.size := by
    have := h.executed_le
    omega
  obtain ⟨c, hc⟩ : ∃ c, log.commands[index]? = some c := ⟨_, Array.getElem?_eq_getElem hlt⟩
  have hdone : c.done = true := (h.done_iff hc).mpr (by omega)
  have hleads : Leads origin (log.commands.toList.take index ++ [c]) t := by
    rw [← take_succ_of_getElem? hc, ← hindex]
    simpa [standing, hnone] using h.leads
  obtain ⟨before, hbelow, hheld⟩ := leads_concat.mp hleads
  have hprevious : log.executed - 1 = index := by omega
  simp only [Log.revertLast, hprevious, hc, Command.revert_of_done hdone]
  cases hrun : Reversible.revert (c.body, t) with
  | ok _ s =>
      obtain ⟨body, t'⟩ := s
      refine ⟨.backward (c := c) hindex hc hdone hrun, ?_, hnone, rfl, hindex,
        touching_setIfInBounds hc rfl, by simp [touching, hc]⟩
      have htarget : t' = before := hfaithful.revert_undoes hheld hrun
      refine h.of_replaced hnone (Nat.le_of_lt hlt) (fun j hj => by omega) (by simp) ?_
      rw [take_setIfInBounds (Nat.le_refl _), htarget]
      exact hbelow
  | error e s =>
      obtain ⟨body, t'⟩ := s
      have htarget : t' = t := hfaithful.revert_failed hheld hrun
      refine ⟨?_, c, by simp [hnone, Array.mem_of_getElem? hc], body, t', .inr hrun⟩
      refine h.of_replaced hnone h.executed_le (fun _ _ => Iff.rfl) (by simp [hdone, hindex]) ?_
      have hnew : (log.commands.setIfInBounds index { c with body })[index]? = some { c with body } :=
        Array.getElem?_setIfInBounds_self_of_lt hlt
      rw [hindex, take_succ_of_getElem? hnew, take_setIfInBounds (Nat.le_refl _), htarget]
      exact leads_concat.mpr ⟨before, hbelow, .refused hheld hrun⟩

/-- Turns of one kind, as many as `I` counts, succeed as turns in a row that tell what was due, or stop at a turn
whose body failed. -/
theorem Sound.of_times {origin : σ} (edit : Edit (Log β × σ) Touched) (I : Nat → Log β → Prop)
    (due : Nat → Log β → List Touched) (hnothing : ∀ log, I 0 log → due 0 log = [])
    (hstep : ∀ n log t, Sound origin log t → I (n + 1) log →
      Advances origin log t (fun log' x => I n log' ∧ due (n + 1) log = x :: due n log') (edit (log, t)))
    (n : Nat) {log : Log β} {t : σ} (h : Sound origin log t) (hI : I n log) :
    match times edit n (log, t) with
    | .ok xs (log', t') =>
      Turns (log, t) xs (log', t') ∧ Sound origin log' t' ∧ I 0 log' ∧ xs = due n log
    | .error e (log', t') => Sound origin log' t' ∧ ∃ xs m, Turns (log, t) xs m ∧ Fails m e := by
  induction n generalizing log t with
  | zero => exact ⟨.nil _, h, hI, (hnothing log hI).symm⟩
  | succ n ih =>
      have hfirst := hstep n log t h hI
      cases hrun : edit (log, t) with
      | error e s =>
          obtain ⟨log', t'⟩ := s
          rw [hrun] at hfirst
          have hall : times edit (n + 1) (log, t) = .error e (log', t') := by
            simp [Log.times, bind, EStateM.bind, hrun]
          rw [hall]
          exact ⟨hfirst.1, [], _, .nil _, hfirst.2⟩
      | ok x s =>
          obtain ⟨log₁, t₁⟩ := s
          rw [hrun] at hfirst
          obtain ⟨hturn, hsound, hI₁, hdue⟩ := hfirst
          have hrest := ih hsound hI₁
          cases htail : times edit n (log₁, t₁) with
          | error e s =>
              obtain ⟨log', t'⟩ := s
              rw [htail] at hrest
              have hall : times edit (n + 1) (log, t) = .error e (log', t') := by
                simp [Log.times, bind, EStateM.bind, hrun, htail]
              rw [hall]
              obtain ⟨hsound', xs, m, hturns, hfails⟩ := hrest
              exact ⟨hsound', x :: xs, m, .cons hturn hturns, hfails⟩
          | ok xs s =>
              obtain ⟨log', t'⟩ := s
              rw [htail] at hrest
              have hall : times edit (n + 1) (log, t) = .ok (x :: xs) (log', t') := by
                simp [Log.times, bind, EStateM.bind, pure, EStateM.pure, hrun, htail]
              rw [hall]
              obtain ⟨hturns, hsound', hI', hxs⟩ := hrest
              exact ⟨.cons hturn hturns, hsound', hI', by rw [hdue, hxs]⟩

end SearchLab.Log
