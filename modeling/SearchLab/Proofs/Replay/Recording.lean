import SearchLab.Proofs.Replay.Seek

/-!
# Recorded searches

A recorder queues the values that its steps will give to properties, and reads from the queue what a step replaces. What
the graph on top will show when the steps so far have been replayed is known from that: it is what the graph shows now
with the queue laid over it. The queue is kept by address, and an edge has two; an outcome is not queued at all. A step
therefore knows what it replaces only as long as nothing was queued for it under another address, and no outcome was
recorded before on the same graph. A replay can go anywhere and back exactly when all steps know.

* `Foretold` — a recorder whose queue foretells what a replay shows;
* `Recorded.foretold` — whatever a call records, the queue goes on to foretell;
* `Foretold.knows_iff` — a step knows what it replaces exactly when taking it back restores what was shown;
* `restoring_iff_knowing` — the same for all the steps of a recording.
-/

namespace SearchLab

open Look

/-- A graph on which no search has ended, and whose nodes are in a state that a replay can give back to them. -/
structure Graph.Replayable (g : Graph) : Prop where
  outcome : g.outcome = .none
  states : ∀ {slot n}, g.node? slot = some n → n.state ∈ stateWords

/-- What a replayable graph shows may be set again. -/
theorem Graph.Replayable.fits {g : Graph} (h : g.Replayable) {spot : Spot} {value : Json} (hshown : g.shown spot = some value) :
    spot.Fits value := by
  cases spot with
  | state slot =>
      obtain ⟨n, hnode, rfl⟩ := Option.map_eq_some_iff.mp hshown
      exact ⟨n.state, h.states hnode, rfl⟩
  | node slot =>
      obtain ⟨n, -, rfl⟩ := Option.map_eq_some_iff.mp hshown
      exact ⟨n.isHighlighted, rfl⟩
  | edge place =>
      obtain ⟨e, -, rfl⟩ := Option.map_eq_some_iff.mp hshown
      exact ⟨e.data.isTruthy "highlighted", rfl⟩

namespace Recorder

/-- The commands of the steps so far. -/
def commands (r : Recorder) : List (Command Change) := r.steps.filterMap Step.command

/-- How the last steps mark the search, the last one first, back to where the graph on top was pushed. -/
def ending : List Step → Outcome
  | [] => .none
  | step :: earlier =>
    match step.command.map Command.body with
    | some (.layer _) => .none
    | some (.outcome o) => o
    | _ => ending earlier

/-- What the graph pushed last will show when the steps so far have been replayed. -/
def foreseen (r : Recorder) : Look :=
  (r.graph.look.overlaid r.pending).withOutcome (ending r.reversedSteps)

/-- The value queued last for a spot, under whichever address, or else the one shown there now. -/
def latest (r : Recorder) (spot : Spot) : Option Json :=
  (topmost? r.graph.slots r.pending spot).or (r.graph.shown spot)

/-- A change that is recorded next knows what it replaces: an outcome replaces none, and the old value that comes first
for a spot is the latest one there. -/
def Knows (r : Recorder) : Change → Prop
  | .outcome _ => ending r.reversedSteps = .none
  | .properties changes =>
    ∀ spot value, topmost? r.graph.slots (oldValues changes) spot = some value → r.latest spot = some value
  | _ => True

/-- What has been recorded can be replayed, and leads to what is foreseen. -/
structure Foretold (g : Graph) (r : Recorder) : Prop where
  playable : Playable [g.look] r.commands
  top : ∃ below, shownAfter [g.look] r.commands = r.foreseen :: below
  replayable : r.graph.Replayable
  pending : ∀ q ∈ r.pending, r.graph.look.Takes q.1.1 q.1.2 q.2

theorem foretold_start {g : Graph} (hg : g.Replayable) : Foretold g { base := g } where
  playable := by
    intro i c hc
    simp [commands, steps] at hc
  top := ⟨[], congrArg (· :: []) (withOutcome_eq_self_iff.mpr hg.outcome).symm⟩
  replayable := hg
  pending := by simp

theorem commands_of_step {r r' : Recorder} {step : Step} (h : r'.reversedSteps = step :: r.reversedSteps) :
    r'.commands = r.commands ++ step.command.toList := by
  cases hcommand : step.command <;> simp [commands, steps, h, hcommand]

/-! ## What a step knows -/

section Foretold

variable {g : Graph} {r : Recorder}

theorem matches_foreseen (r : Recorder) : Matches r.graph.look r.foreseen :=
  ⟨(r.graph.look.matches_overlaid r.pending).slots, (r.graph.look.matches_overlaid r.pending).present⟩

/-- What is foreseen at a spot is the latest value there. -/
theorem Foretold.shown_foreseen (h : Foretold g r) (spot : Spot) : r.foreseen.shown spot = r.latest spot := by
  have hshown := shown_overlaid r.graph.look r.pending spot
  rw [show r.foreseen.shown spot = (r.graph.look.overlaid r.pending).shown spot from rfl, hshown]
  unfold latest
  cases hqueued : topmost? r.graph.slots r.pending spot with
  | none => simp [hqueued]
  | some value =>
      obtain ⟨present, hpresent⟩ := present_of_topmost? h.pending hqueued
      simp [hqueued, hpresent]

/-- A step knows what it replaces exactly when taking it back restores what was shown. -/
theorem Foretold.knows_iff (h : Foretold g r) {change : Change}
    (hsuits : change.Suits (shownAfter [g.look] r.commands)) (hmarks : change ≠ .outcome .none) :
    r.Knows change ↔
      change.retraction (change.effect (shownAfter [g.look] r.commands)) = shownAfter [g.look] r.commands := by
  obtain ⟨below, htop⟩ := h.top
  rw [htop] at hsuits ⊢
  cases change with
  | layer held =>
      obtain ⟨g', rfl⟩ := Option.isSome_iff_exists.mp hsuits
      simp [Knows, Change.retraction, Change.effect]
  | outcome o =>
      have ho : o ≠ .none := fun heq => hmarks (by rw [heq])
      have hback : (r.foreseen.withOutcome o).withOutcome .none = r.foreseen.withOutcome .none := rfl
      simp only [Knows, Change.retraction, Change.effect, marked, unmarked, ho, if_false, List.cons.injEq, and_true,
        hback, withOutcome_eq_self_iff]
      rfl
  | properties changes =>
      have htakes : ∀ c ∈ changes, r.foreseen.Takes c.target c.property c.old := fun c hc => (hsuits c hc).1
      have hslots : r.foreseen.slots = r.graph.slots := r.matches_foreseen.slots.symm
      simp only [Knows, Change.retraction, Change.effect, List.cons.injEq, and_true, restored_written_iff htakes,
        h.shown_foreseen, hslots]
  | toggle id previous => cases hsuits
  | custom forward backward => cases hsuits

/-! ## What a call records -/

/-- What a call leaves of a recorder: the recorder as it was, or with one step more. A command in that step is not done,
can be done where the others lead, and leads on to what is then foreseen. -/
inductive Recorded (g : Graph) (r : Recorder) : Recorder → Prop
  | nothing : Recorded g r r
  | silent (shown : Json) (isTerminal : Bool) : Recorded g r (r.push shown none isTerminal)
  | command {r' : Recorder} {step : Step} {c : Command Change} (hstep : r'.reversedSteps = step :: r.reversedSteps)
      (hcommand : step.command = some c) (hpristine : c.done = false)
      (hsuits : c.body.Suits (shownAfter [g.look] r.commands)) (hmarks : c.body ≠ .outcome .none)
      (htop : ∃ below, c.body.effect (shownAfter [g.look] r.commands) = r'.foreseen :: below)
      (hreplayable : r'.graph.Replayable) (hpending : ∀ q ∈ r'.pending, r'.graph.look.Takes q.1.1 q.1.2 q.2) :
      Recorded g r r'

/-- The step by which one recorder is ahead of another, if it has a command, knows what it replaces. -/
def KnowsLast (r r' : Recorder) : Prop :=
  ∀ step c, r'.reversedSteps = step :: r.reversedSteps → step.command = some c → r.Knows c.body

/-- A recorder goes on foretelling what a replay shows. -/
theorem Recorded.foretold {r' : Recorder} (hrecorded : Recorded g r r') (h : Foretold g r) : Foretold g r' := by
  cases hrecorded with
  | nothing => exact h
  | silent shown isTerminal =>
      have hcommands : (r.push shown none isTerminal).commands = r.commands := by
        rw [commands_of_step rfl]
        simp
      exact
        { playable := by rw [hcommands]; exact h.playable
          top := by rw [hcommands]; exact h.top
          replayable := h.replayable
          pending := h.pending }
  | command hstep hcommand hpristine hsuits hmarks htop hreplayable hpending =>
      have hcommands := commands_of_step hstep
      rw [hcommand, Option.toList_some] at hcommands
      exact
        { playable := by rw [hcommands]; exact along_concat.mpr ⟨h.playable, hpristine, hsuits⟩
          top := by
            rw [hcommands, shownAfter, List.foldl_append]
            exact htop
          replayable := hreplayable
          pending := hpending }

/-- What has been recorded restores what is shown, step by step, exactly when it did before and the last step knows what
it replaces. -/
theorem Recorded.restoring_iff {r' : Recorder} (hrecorded : Recorded g r r') (h : Foretold g r) :
    Restoring (· = ·) [g.look] r'.commands ↔ Restoring (· = ·) [g.look] r.commands ∧ KnowsLast r r' := by
  cases hrecorded with
  | nothing =>
      have hnone : KnowsLast r r := fun step c hstep => absurd hstep (List.cons_ne_self step r.reversedSteps).symm
      simp [hnone]
  | silent shown isTerminal =>
      have hcommands : (r.push shown none isTerminal).commands = r.commands := by
        rw [commands_of_step rfl]
        simp
      have hnone : KnowsLast r (r.push shown none isTerminal) := by
        intro step c hstep hcommand
        cases hstep
        cases hcommand
      simp [hcommands, hnone]
  | @command _ step c hstep hcommand hpristine hsuits hmarks htop hreplayable hpending =>
      have hcommands := commands_of_step hstep
      rw [hcommand, Option.toList_some] at hcommands
      have hlast : KnowsLast r r' ↔ r.Knows c.body := by
        constructor
        · exact fun hknows => hknows step c hstep hcommand
        · intro hknows step' c' hstep' hcommand'
          obtain rfl : step = step' := (List.cons.inj (hstep.symm.trans hstep')).1
          obtain rfl : c = c' := Option.some.inj (hcommand.symm.trans hcommand')
          exact hknows
      rw [hcommands, Restoring, along_concat, hlast, h.knows_iff hsuits hmarks, List.forall₂_eq_eq_eq]

/-! ## Single calls -/

/-- The queue behind a step: its values, the last one in front, before those of earlier steps. -/
theorem foldl_queue (changes : List PropertyChange) (pending : Values) :
    changes.foldl (fun pending c => ((c.target, c.property), c.new) :: pending) pending =
      newValues changes ++ pending := by
  induction changes generalizing pending with
  | nil => rfl
  | cons c rest ih => simp [ih, newValues]

/-- The value that a recorder names for a property may be set: it was queued, or it is shown now. -/
theorem Foretold.takes_of_valueOf (h : Foretold g r) {target : Target} {property : String} (htracked : Tracked property)
    {value : Json} (hvalue : r.valueOf target property = .ok value) : r.graph.look.Takes target property value := by
  unfold valueOf at hvalue
  split at hvalue
  · rename_i key queued hfind
    cases hvalue
    have hkey : key = (target, property) := by simpa using List.find?_some hfind
    have hqueued := h.pending _ (List.mem_of_find?_eq_some hfind)
    rwa [hkey] at hqueued
  · obtain ⟨spot, hspot, hshown⟩ := (r.graph.getProperty_eq_ok_iff htracked value).mp hvalue
    exact ⟨spot, hspot, by simp [hshown], h.replayable.fits hshown⟩

/-- What a step changes was asked for, and has the value that the recorder names as its old one. -/
theorem valueOf_of_changesOf {news : List (Target × String × Json)} {changes : List PropertyChange}
    (hchanges : r.changesOf news = .ok changes) {c : PropertyChange} (hc : c ∈ changes) :
    (c.target, c.property, c.new) ∈ news ∧ r.valueOf c.target c.property = .ok c.old := by
  induction news generalizing changes with
  | nil =>
      cases hchanges
      exact absurd hc List.not_mem_nil
  | cons n rest ih =>
      obtain ⟨target, property, new⟩ := n
      unfold changesOf at hchanges
      split at hchanges
      · exact absurd hchanges (by simp)
      · rename_i old hold
        split at hchanges
        · exact absurd hchanges (by simp)
        · rename_i later hlater
          cases hchanges
          rcases List.mem_cons.mp hc with rfl | hc
          · exact ⟨List.mem_cons_self, hold⟩
          · obtain ⟨hmem, hvalue⟩ := ih hlater hc
            exact ⟨List.mem_cons_of_mem _ hmem, hvalue⟩

/-- Setting properties leaves the recorder alone where one of them cannot be read, or adds one step and queues its values.
-/
theorem after_alter (r : Recorder) (news : List (Target × String × Json)) (shown : Json) :
    Edit.after (alter news shown) r = r ∨
      ∃ changes, r.changesOf news = .ok changes ∧ Edit.after (alter news shown) r =
        { r with
          pending := newValues changes ++ r.pending
          reversedSteps := ⟨shown, some (Change.setProperties changes), false⟩ :: r.reversedSteps } := by
  cases hchanges : r.changesOf news with
  | error e => exact .inl (by simp [Edit.after, alter, hchanges])
  | ok changes => exact .inr ⟨changes, rfl, by simp only [Edit.after, alter, hchanges, foldl_queue, push]⟩

/-- Noting the state of a node is setting a property, where there is a node. -/
theorem after_setState (r : Recorder) (word : String) (slot : Nat) (shown : Json) :
    Edit.after (setState word slot shown) r = r ∨
      ∃ id, Edit.after (setState word slot shown) r = Edit.after (alter [(.node id, "state", .text word)] shown) r := by
  cases hnode : r.graph.node? slot with
  | none => exact .inl (by simp [Edit.after, setState, hnode])
  | some n => exact .inr ⟨n.id, by simp [Edit.after, setState, hnode]⟩

/-- Properties that are set to values that fit their spots are recorded. -/
theorem recorded_alter (h : Foretold g r) {news : List (Target × String × Json)} (shown : Json)
    (hnews : ∀ n ∈ news, Tracked n.2.1 ∧ ∀ spot, spot? r.graph.slots n.1 n.2.1 = some spot → spot.Fits n.2.2) :
    Recorded g r (Edit.after (alter news shown) r) := by
  rcases r.after_alter news shown with hsame | ⟨changes, hchanges, hrun⟩
  · rw [hsame]
    exact .nothing
  · have htakes : ∀ c ∈ changes, r.graph.look.Takes c.target c.property c.old ∧
        r.graph.look.Takes c.target c.property c.new := by
      intro c hc
      obtain ⟨hmem, hvalue⟩ := valueOf_of_changesOf hchanges hc
      obtain ⟨htracked, hfits⟩ := hnews _ hmem
      have hold := h.takes_of_valueOf htracked hvalue
      refine ⟨hold, ?_⟩
      obtain ⟨spot, hspot, hpresent, -⟩ := hold
      exact ⟨spot, hspot, hpresent, hfits spot hspot⟩
    obtain ⟨below, htop⟩ := h.top
    rw [hrun]
    refine .command rfl rfl rfl ?_ (by simp [Change.setProperties]) ⟨below, ?_⟩ h.replayable ?_
    · rw [htop]
      exact fun c hc => ⟨(htakes c hc).1.of_matches r.matches_foreseen, (htakes c hc).2.of_matches r.matches_foreseen⟩
    · rw [htop]
      simp only [Change.setProperties, Change.effect, written, foreseen, overlaid_withOutcome, overlaid_append]
      rfl
    · intro q hq
      rcases List.mem_append.mp hq with hq | hq
      · obtain ⟨c, hc, rfl⟩ := List.mem_map.mp hq
        exact (htakes c (List.mem_reverse.mp hc)).2
      · exact h.pending q hq

/-- How far a search has come with a node is recorded, by one of the words for it. -/
theorem recorded_setState (h : Foretold g r) {word : String} (hword : word ∈ stateWords) (slot : Nat) (shown : Json) :
    Recorded g r (Edit.after (setState word slot shown) r) := by
  rcases r.after_setState word slot shown with hsame | ⟨id, halter⟩
  · rw [hsame]
    exact .nothing
  · rw [halter]
    refine recorded_alter h shown fun m hm => ?_
    obtain rfl := List.mem_singleton.mp hm
    refine ⟨.inl rfl, fun spot hspot => ?_⟩
    obtain ⟨s, -, rfl⟩ := Option.map_eq_some_iff.mp hspot
    exact ⟨word, hword, rfl⟩

theorem recorded_point (h : Foretold g r) (on : Bool) (targets : List Target) (shown : Json) :
    Recorded g r (Edit.after (point on targets shown) r) := by
  refine recorded_alter h shown fun m hm => ?_
  obtain ⟨target, -, rfl⟩ := List.mem_map.mp hm
  refine ⟨.inr rfl, fun spot hspot => ?_⟩
  cases target with
  | graph => exact absurd hspot (by simp [spot?])
  | node id =>
      obtain ⟨s, -, rfl⟩ := Option.map_eq_some_iff.mp hspot
      exact ⟨on, rfl⟩
  | edge id =>
      obtain ⟨p, -, rfl⟩ := Option.map_eq_some_iff.mp hspot
      exact ⟨on, rfl⟩

theorem recorded_outcome (h : Foretold g r) {outcome : Outcome} (houtcome : outcome ≠ .none) (name : String)
    (shown : Json) :
    Recorded g r (r.push shown (some { name, body := Change.outcome outcome }) true) := by
  obtain ⟨below, htop⟩ := h.top
  refine .command rfl rfl rfl ?_ (by simpa using houtcome) ⟨below, ?_⟩ h.replayable h.pending
  · rw [htop]
    exact List.cons_ne_nil _ _
  · rw [htop]
    simp only [Change.effect, marked, houtcome, if_false]
    rfl

theorem recorded_create {other : Graph} (hother : other.Replayable) (shown : Json) :
    Recorded g r (Edit.after (create other shown) r) := by
  have hlook : (Edit.after (create other shown) r).foreseen = other.look :=
    withOutcome_eq_self_iff.mpr hother.outcome
  refine .command rfl rfl rfl rfl (by simp [Change.pushLayer]) ⟨shownAfter [g.look] r.commands, ?_⟩ hother ?_
  · rw [hlook]
    rfl
  · intro q hq
    exact absurd hq List.not_mem_nil

end Foretold

/-! ## All calls of a search -/

/-- A call of a search to its recorder. -/
inductive Call where
  | visit (slot : Nat) (shown : Json)
  | expand (slot : Nat) (shown : Json)
  | point (on : Bool) (targets : List Target) (shown : Json)
  | log (shown : Json)
  | success (shown : Json)
  | failure (shown : Json)
  | create (g : Graph) (shown : Json)

/-- What a call does. -/
def Call.edit : Call → Edit Recorder Unit
  | .visit slot shown => Recorder.visit slot shown
  | .expand slot shown => Recorder.expand slot shown
  | .point on targets shown => Recorder.point on targets shown
  | .log shown => Recorder.log shown
  | .success shown => do let _ ← Recorder.success shown
  | .failure shown => do let _ ← Recorder.failure shown
  | .create g shown => Recorder.create g shown

/-- The recorder behind a call, also when it fails. -/
def Call.run (r : Recorder) (call : Call) : Recorder := call.edit.after r

/-- A graph that a call lays on top can be replayed on. -/
def Call.Replayable : Call → Prop
  | .create g _ => g.Replayable
  | _ => True

/-- What a search on a graph records. -/
def record (g : Graph) (calls : List Call) : Recorder := calls.foldl Call.run { base := g }

/-- Each step that calls record knows what it replaces. -/
def Knowing : Recorder → List Call → Prop
  | _, [] => True
  | r, call :: rest => KnowsLast r (call.run r) ∧ Knowing (call.run r) rest

theorem recorded_run {g : Graph} {r : Recorder} (h : Foretold g r) {call : Call} (hcall : call.Replayable) :
    Recorded g r (call.run r) := by
  cases call with
  | visit slot shown => exact recorded_setState h (by simp [stateWords]) slot shown
  | expand slot shown => exact recorded_setState h (by simp [stateWords]) slot shown
  | point on targets shown => exact recorded_point h on targets shown
  | log shown => exact .silent shown false
  | success shown => exact recorded_outcome h (by simp) _ shown
  | failure shown => exact recorded_outcome h (by simp) _ shown
  | create g shown => exact recorded_create hcall shown

/-- Calls keep a recorder foretelling, and what they record restores what is shown exactly when their steps know. -/
theorem foretold_foldl {g : Graph} {r : Recorder} (h : Foretold g r) {calls : List Call}
    (hcalls : ∀ call ∈ calls, call.Replayable) :
    Foretold g (calls.foldl Call.run r) ∧
      (Restoring (· = ·) [g.look] (calls.foldl Call.run r).commands ↔
        Restoring (· = ·) [g.look] r.commands ∧ Knowing r calls) := by
  induction calls generalizing r with
  | nil => exact ⟨h, by simp [Knowing]⟩
  | cons call rest ih =>
      have hrecorded := recorded_run h (hcalls call List.mem_cons_self)
      obtain ⟨hforetold, hiff⟩ := ih (hrecorded.foretold h) fun c hc => hcalls c (List.mem_cons_of_mem call hc)
      refine ⟨hforetold, ?_⟩
      rw [List.foldl_cons, hiff, hrecorded.restoring_iff h, Knowing, and_assoc]

/-- The commands of a recording restore what is shown exactly when its steps know what they replace. -/
theorem restoring_iff_knowing {g : Graph} (hg : g.Replayable) {calls : List Call}
    (hcalls : ∀ call ∈ calls, call.Replayable) :
    Restoring (· = ·) [g.look] (record g calls).commands ↔ Knowing { base := g } calls := by
  have hstart : Restoring (· = ·) [g.look] ({ base := g } : Recorder).commands := by
    intro i c hc
    simp [commands, steps] at hc
  rw [record, (foretold_foldl (foretold_start hg) hcalls).2]
  exact and_iff_right hstart

end Recorder

end SearchLab
