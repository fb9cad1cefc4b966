import SearchLab.Proofs.Graph.Count
import SearchLab.Proofs.Replay.Look
import SearchLab.Replay.BreadthFirst

/-!
# Breadth-first search is right

The search follows the nodes of a breadth-first walk in turn, and stops behind the goal or behind the last node. What
happens becomes a recording step by step: each event can be recorded, and ends the recording only where it ends the
search. So the recorded nodes are those of the walk, which goes level by level, and distances without weights are levels.

* `eventsFrom_eq` — the nodes that are followed, and how the search ends;
* `Event.Becomes`, `forM_record` — the steps that events become;
* `breadthFirst_solves` — what the recorded search says of the graph.
-/

namespace SearchLab

open Relation (ReflTransGen)

/-! ## What happens in a search -/

namespace Event

/-- The node whose edges are followed. -/
def followed? : Event → Option Nat
  | .expand slot _ => some slot
  | _ => none

/-- How the search ends. -/
def outcome? : Event → Option Outcome
  | .success => some .success
  | .failure => some .failure
  | _ => none

/-- The node that something happens to. -/
def slot? : Event → Option Nat
  | .expand slot _ => some slot
  | .visit slot _ => some slot
  | _ => none

/-- Where the search ends, nothing happens to a node. -/
theorem of_outcome? {e : Event} {o : Outcome} (h : e.outcome? = some o) : e.followed? = none ∧ e.slot? = none := by
  cases e with
  | expand | visit => cases h
  | success | failure => exact ⟨rfl, rfl⟩

end Event

/-- The slots up to the goal, with the goal itself. -/
def untilGoal (goal : Nat) : List Nat → List Nat
  | [] => []
  | slot :: slots => if slot = goal then [slot] else slot :: untilGoal goal slots

section Until

variable {goal : Nat} {slots : List Nat}

theorem untilGoal_sublist (goal : Nat) (slots : List Nat) : (untilGoal goal slots).Sublist slots := by
  induction slots with
  | nil => exact .slnil
  | cons slot rest ih =>
      unfold untilGoal
      split
      · exact (List.nil_sublist rest).cons_cons slot
      · exact ih.cons_cons slot

theorem untilGoal_of_mem (h : goal ∈ slots) : ∃ before, untilGoal goal slots = before ++ [goal] := by
  induction slots with
  | nil => cases h
  | cons slot rest ih =>
      unfold untilGoal
      by_cases hslot : slot = goal
      · rw [if_pos hslot]
        exact ⟨[], by rw [hslot, List.nil_append]⟩
      · rw [if_neg hslot]
        obtain ⟨before, hbefore⟩ := ih ((List.mem_cons.mp h).resolve_left (Ne.symm hslot))
        exact ⟨slot :: before, by rw [hbefore, List.cons_append]⟩

theorem untilGoal_of_not_mem (h : goal ∉ slots) : untilGoal goal slots = slots := by
  induction slots with
  | nil => rfl
  | cons slot rest ih =>
      obtain ⟨hslot, hrest⟩ := not_or.mp (List.mem_cons.not.mp h)
      rw [untilGoal, if_neg (Ne.symm hslot), ih hrest]

end Until

/-- Nodes are found, and nothing else. -/
theorem of_mem_visits {e : Event} {waiting found : List Nat} (h : e ∈ visits waiting found) :
    ∃ slot ∈ found, ∃ others, e = .visit slot others := by
  induction found generalizing waiting with
  | nil => cases h
  | cons slot rest ih =>
      rcases List.mem_cons.mp h with rfl | h
      · exact ⟨slot, List.mem_cons_self, waiting, rfl⟩
      · obtain ⟨other, hother, others, heq⟩ := ih h
        exact ⟨other, List.mem_cons_of_mem slot hother, others, heq⟩

theorem filterMap_followed_visits (waiting found : List Nat) : (visits waiting found).filterMap Event.followed? = [] := by
  refine List.filterMap_eq_nil_iff.mpr fun e he => ?_
  obtain ⟨slot, -, others, rfl⟩ := of_mem_visits he
  rfl

/-- **A search follows the nodes of the walk** up to the goal. It succeeds if the walk comes to the goal, and fails
otherwise; and nothing happens but to nodes of the walk. -/
theorem eventsFrom_eq (next : Nat → List Nat) (goal : Nat) (waiting unseen : List Nat) :
    ∃ told last, eventsFrom next goal waiting unseen = told ++ [last] ∧
      last.outcome? = some (if goal ∈ reach next waiting unseen then .success else .failure) ∧
      told.filterMap Event.followed? = untilGoal goal (reach next waiting unseen) ∧
      ∀ e ∈ told, e.outcome? = none ∧ ∀ slot, e.slot? = some slot → slot ∈ reach next waiting unseen := by
  induction waiting, unseen using reach.induct next with
  | case1 => exact ⟨[], .failure, by simp [eventsFrom], by simp [reach, Event.outcome?], by simp [reach, untilGoal], by simp⟩
  | case2 unseen first waiting found ih =>
      have hwalk : reach next (first :: waiting) unseen = first :: reach next (waiting ++ found.1) found.2 := by
        rw [reach]
      by_cases hgoal : first = goal
      · have hevents : eventsFrom next goal (first :: waiting) unseen = [.expand first (next first), .success] := by
          rw [eventsFrom, if_pos hgoal]
        refine ⟨[.expand first (next first)], .success, hevents, ?_, ?_, fun e he => ?_⟩
        · rw [hwalk, if_pos (hgoal ▸ List.mem_cons_self)]
          rfl
        · rw [hwalk, untilGoal, if_pos hgoal]
          rfl
        · obtain rfl := List.mem_singleton.mp he
          refine ⟨rfl, fun slot hslot => ?_⟩
          obtain rfl := Option.some.inj hslot
          rw [hwalk]
          exact List.mem_cons_self
      · obtain ⟨told, last, hevents, houtcome, hfollowed, htold⟩ := ih
        have hfirst : eventsFrom next goal (first :: waiting) unseen =
            .expand first (next first) :: (visits waiting found.1 ++ eventsFrom next goal (waiting ++ found.1) found.2) := by
          rw [eventsFrom, if_neg hgoal]
        have hmem : goal ∈ first :: reach next (waiting ++ found.1) found.2 ↔
            goal ∈ reach next (waiting ++ found.1) found.2 :=
          List.mem_cons.trans (or_iff_right (Ne.symm hgoal))
        refine ⟨.expand first (next first) :: (visits waiting found.1 ++ told), last, ?_, ?_, ?_, fun e he => ?_⟩
        · rw [hfirst, hevents, List.cons_append, List.append_assoc]
        · simp only [hwalk, hmem, houtcome]
        · have hexpand : (Event.expand first (next first) :: (visits waiting found.1 ++ told)).filterMap Event.followed? =
              first :: (visits waiting found.1 ++ told).filterMap Event.followed? := rfl
          rw [hexpand, hwalk, untilGoal, if_neg hgoal, ← hfollowed, List.filterMap_append, filterMap_followed_visits,
            List.nil_append]
        · rw [hwalk]
          rcases List.mem_cons.mp he with rfl | he
          · exact ⟨rfl, fun slot hslot => Option.some.inj hslot ▸ List.mem_cons_self⟩
          · rcases List.mem_append.mp he with he | he
            · obtain ⟨slot, hslot, others, rfl⟩ := of_mem_visits he
              refine ⟨rfl, fun other hother => ?_⟩
              obtain rfl := Option.some.inj hother
              exact List.mem_cons_of_mem first (mem_reach_of_waiting next (List.mem_append_right waiting hslot))
            · obtain ⟨hends, hslots⟩ := htold e he
              exact ⟨hends, fun slot hslot => List.mem_cons_of_mem first (hslots slot hslot)⟩

/-! ## What is recorded -/

/-- The node that a change expands: it gives the state of expanded nodes to it and does nothing else. -/
def Change.expanded? : Change → Option String
  | .properties [⟨.node id, property, _, .text state⟩] => if property = "state" ∧ state = "expanded" then some id else none
  | _ => none

/-- How a change ends a search. -/
def Change.outcome? : Change → Option Outcome
  | .outcome o => some o
  | _ => none

namespace Step

/-- The node that a step expands, by id. -/
def expanded? (step : Step) : Option String := step.command.bind fun c => c.body.expanded?

/-- How a step ends the search. -/
def outcome? (step : Step) : Option Outcome := step.command.bind fun c => c.body.outcome?

end Step

/-- An event becomes a step that says the same of the graph. -/
structure Event.Becomes (g : Graph) (e : Event) (step : Step) : Prop where
  terminal : step.isTerminal = e.outcome?.isSome
  outcome : step.outcome? = e.outcome?
  expanded : step.expanded? = e.followed?.bind g.idOf?

section Recording

variable {g : Graph}

/-- The state of a node can be read. -/
theorem getProperty_state (hg : g.Arena) {slot : Nat} {n : Node} (hn : g.node? slot = some n) :
    g.getProperty (.node n.id) "state" = .ok (.text n.state) := by
  have hslot : g.slots[n.id]? = some slot := (hg.lookup n.id slot).mpr ⟨n, hn, rfl⟩
  refine (g.getProperty_eq_ok_iff (.inl rfl) _).mpr ⟨.state slot, ?_, ?_⟩
  · simp [spot?, hslot]
  · simp [Graph.shown, hn]

/-- Noting the state of a node records one step. -/
theorem setState_ok (hg : g.Arena) {r : Recorder} (hr : r.graph = g) {slot : Nat} {n : Node} (hn : g.node? slot = some n)
    (word : String) :
    ∃ old pending, ∀ shown, Recorder.setState word slot shown r = .ok ()
      ({ r with pending }.push shown (some (Change.setProperties [⟨.node n.id, "state", old, .text word⟩])) false) := by
  subst hr
  have hold : ∃ old, r.valueOf (.node n.id) "state" = .ok old := by
    unfold Recorder.valueOf
    split
    · exact ⟨_, rfl⟩
    · exact ⟨_, getProperty_state hg hn⟩
  obtain ⟨old, hold⟩ := hold
  have hchanges : r.changesOf [(.node n.id, "state", .text word)] = .ok [⟨.node n.id, "state", old, .text word⟩] := by
    simp [Recorder.changesOf, hold]
  refine ⟨old, ((.node n.id, "state"), .text word) :: r.pending, fun shown => ?_⟩
  simp only [Recorder.setState, hn, Recorder.alter, hchanges]
  rfl

/-- What happens to a node of the graph can be recorded, in one step. -/
theorem record_ok (hg : g.Arena) {r : Recorder} (hr : r.graph = g) {e : Event}
    (hlive : ∀ slot, e.slot? = some slot → g.Live slot) :
    ∃ r' step, Event.record g e r = .ok () r' ∧ r'.reversedSteps = step :: r.reversedSteps ∧ r'.graph = g ∧
      e.Becomes g step := by
  cases e with
  | expand slot next =>
      obtain ⟨n, hn⟩ := Graph.live_iff.mp (hlive slot rfl)
      obtain ⟨old, pending, hrecord⟩ := setState_ok hg hr hn "expanded"
      have hid : g.idOf? slot = some n.id := by rw [Graph.idOf?, hn, Option.map_some]
      exact ⟨_, _, hrecord _, rfl, hr, rfl, rfl, hid.symm⟩
  | visit slot waiting =>
      obtain ⟨n, hn⟩ := Graph.live_iff.mp (hlive slot rfl)
      obtain ⟨old, pending, hrecord⟩ := setState_ok hg hr hn "visited"
      exact ⟨_, _, hrecord _, rfl, hr, rfl, rfl, rfl⟩
  | success => exact ⟨_, _, rfl, rfl, hr, rfl, rfl, rfl⟩
  | failure => exact ⟨_, _, rfl, rfl, hr, rfl, rfl, rfl⟩

/-- Events become steps one by one. -/
theorem forM_record (hg : g.Arena) {events : List Event}
    (hlive : ∀ e ∈ events, ∀ slot, e.slot? = some slot → g.Live slot) {r : Recorder} (hr : r.graph = g) :
    ∃ r' steps, events.forM (Event.record g) r = .ok () r' ∧ r'.reversedSteps = steps.reverse ++ r.reversedSteps ∧
      r'.graph = g ∧ List.Forall₂ (Event.Becomes g) events steps := by
  induction events generalizing r with
  | nil => exact ⟨r, [], rfl, rfl, hr, .nil⟩
  | cons e rest ih =>
      obtain ⟨r₁, step, hfirst, hpushed, hgraph, hbecomes⟩ := record_ok hg hr (hlive e List.mem_cons_self)
      obtain ⟨r₂, steps, hrest, hsteps, hgraph', hall⟩ :=
        ih (fun e he => hlive e (List.mem_cons_of_mem _ he)) hgraph
      refine ⟨r₂, step :: steps, (Edit.bind_ok hfirst).trans hrest, ?_, hgraph', .cons hbecomes hall⟩
      rw [hsteps, hpushed, List.reverse_cons, List.append_assoc, List.singleton_append]

/-- The nodes that are expanded are those that are followed. -/
theorem filterMap_expanded {events : List Event} {steps : List Step} (h : List.Forall₂ (Event.Becomes g) events steps) :
    steps.filterMap Step.expanded? = (events.filterMap Event.followed?).filterMap g.idOf? := by
  induction h with
  | nil => rfl
  | @cons e step events steps hbecomes _ ih =>
      rw [List.filterMap_filterMap] at ih ⊢
      rw [List.filterMap_cons, List.filterMap_cons, hbecomes.expanded, ih]

/-- No step ends the recording before the search ends. -/
theorem isTerminal_of_becomes {events : List Event} {steps : List Step} (h : List.Forall₂ (Event.Becomes g) events steps)
    (hevents : ∀ e ∈ events, e.outcome? = none) : ∀ step ∈ steps, step.isTerminal = false := by
  induction h with
  | nil => exact fun step hstep => absurd hstep List.not_mem_nil
  | @cons e step events steps hbecomes _ ih =>
      intro other hother
      rcases List.mem_cons.mp hother with rfl | hother
      · rw [hbecomes.terminal, hevents e List.mem_cons_self, Option.isSome_none]
      · exact ih (fun e he => hevents e (List.mem_cons_of_mem _ he)) other hother

end Recording

/-! ## The search of a graph -/

/-- The nodes that some steps expand, by id. -/
def expandedIds (steps : List Step) : List String := steps.filterMap Step.expanded?

/-- The recorded search: what it expands are the nodes of the walk up to the goal, and its last step alone says how it
ended. -/
theorem solutionSteps_breadthFirst {g : Graph} (hg : g.Arena) (hindexed : g.Indexed) {start goal : Nat}
    (hstart : g.start = some start) (hgoal : g.goal = some goal) :
    ∃ steps last, solutionSteps breadthFirst g = .ok (steps ++ [last]) ∧
      (last.isTerminal = true ∧ ∀ step ∈ steps, step.isTerminal = false) ∧
      last.outcome? = some (if goal ∈ g.walk start then .success else .failure) ∧
      expandedIds (steps ++ [last]) = (untilGoal goal (g.walk start)).filterMap g.idOf? := by
  obtain ⟨told, ending, hevents, hends, hfollowed, htold⟩ := eventsFrom_eq g.onward goal [start] (g.otherSlots start)
  obtain ⟨hfollows, hslot⟩ := Event.of_outcome? hends
  have hhappened : events g start goal = told ++ [ending] := by
    have hnext : (fun slot => (g.reindex.successors slot).map Node.slot) = g.onward :=
      funext fun slot => Graph.successors_slots hg hindexed slot
    unfold events
    dsimp only
    rw [hnext]
    exact hevents
  have hlive : ∀ e ∈ told, ∀ slot, e.slot? = some slot → g.Live slot := fun e he slot hslot =>
    Graph.live_of_follows hg (hg.start hstart)
      ((Graph.mem_walk hg hindexed (hg.start hstart)).mp ((htold e he).2 slot hslot))
  obtain ⟨r₁, steps, hfirst, hsteps, hgraph, hall⟩ := forM_record (r := { base := g }) hg hlive rfl
  obtain ⟨r₂, last, hrecord, hpushed, -, hbecomes⟩ := record_ok (e := ending) hg hgraph
    fun slot h => absurd (hslot.symm.trans h) (by simp)
  have hterminal : last.isTerminal = true := by rw [hbecomes.terminal, hends, Option.isSome_some]
  have hrun : (events g start goal).forM (Event.record g) { base := g } = .ok () r₂ := by
    rw [hhappened, Edit.forM_append hfirst]
    exact Edit.bind_ok hrecord
  have hsolver : breadthFirst g start goal { base := g } = .ok ((events g start goal).contains .success) r₂ :=
    Edit.bind_ok hrun
  have hrecorded : r₂.reversedSteps = last :: steps.reverse := by rw [hpushed, hsteps, List.append_nil]
  refine ⟨steps, last, ?_, ⟨hterminal, isTerminal_of_becomes hall fun e he => (htold e he).1⟩,
    hbecomes.outcome.trans hends, ?_⟩
  · have hall : r₂.steps = steps ++ [last] := by
      rw [Recorder.steps, hrecorded, List.reverse_cons, List.reverse_reverse]
    unfold solutionSteps
    simp only [hstart, hgoal, hsolver, hrecorded, hterminal, if_true, hall]
  · have hlast : [last].filterMap Step.expanded? = [] := by simp [hbecomes.expanded, hfollows]
    rw [expandedIds, List.filterMap_append, hlast, List.append_nil, filterMap_expanded hall, hfollowed]
    rfl

/-- The node with an id can be reached from a slot. -/
def Graph.LeadsTo (g : Graph) (start : Nat) (id : String) : Prop :=
  ∃ slot, g.idOf? slot = some id ∧ ReflTransGen g.Follows start slot

/-- **Breadth-first search is right.** On a graph with a start and a goal it is recorded to its end, which is marked by
the last step and by no other. It succeeds if the goal can be reached, which is if its distance without weights is finite,
and fails otherwise. No node is expanded twice, and each can be reached and is no nearer than those before it. After a
success the goal was expanded last, and after a failure all nodes were that can be reached. -/
theorem breadthFirst_solves {g : Graph} {start goal : Nat} (hg : g.Reachable) (hstart : g.start = some start)
    (hgoal : g.goal = some goal) :
    ∃ (steps : List Step) (last : Step) (found : List (String × Float)) (goalId : String) (distance : Float),
      solutionSteps breadthFirst g = .ok (steps ++ [last]) ∧
      (last.isTerminal = true ∧ ∀ step ∈ steps, step.isTerminal = false) ∧
      g.distancesFrom start false = some found ∧ g.idOf? goal = some goalId ∧ found.lookup goalId = some distance ∧
      (last.outcome? = some .success ∨ last.outcome? = some .failure) ∧
      (last.outcome? = some .success ↔ ReflTransGen g.Follows start goal) ∧
      (last.outcome? = some .success ↔ distance.isFinite = true) ∧
      (expandedIds (steps ++ [last])).Nodup ∧
      (∀ id ∈ expandedIds (steps ++ [last]), g.LeadsTo start id) ∧
      ((expandedIds (steps ++ [last])).Pairwise fun earlier later => ∃ near far : Float,
        found.lookup earlier = some near ∧ found.lookup later = some far ∧ near ≤ far) ∧
      (last.outcome? = some .success → (expandedIds (steps ++ [last])).getLast? = some goalId) ∧
      (last.outcome? = some .failure → ∀ id, id ∈ expandedIds (steps ++ [last]) ↔ g.LeadsTo start id) := by
  obtain ⟨harena, hindexed⟩ := hg.arena_indexed
  have hlive := harena.start hstart
  obtain ⟨steps, last, hsteps, hlast, houtcome, hids⟩ := solutionSteps_breadthFirst harena hindexed hstart hgoal
  obtain ⟨dist, hfound, hfinite, hordered⟩ := Graph.distancesFrom_ordered harena hindexed hlive
  obtain ⟨n, hn⟩ := Graph.live_iff.mp (harena.goal hgoal)
  have hgoalId : g.idOf? goal = some n.id := by rw [Graph.idOf?, hn, Option.map_some]
  have hlookup : ∀ {slot id}, g.idOf? slot = some id →
      (g.nodeList.map fun n => (n.id, dist n.slot)).lookup id = some (dist slot) := Graph.lookup_of_idOf? harena dist
  have hwalk : ∀ {slot}, slot ∈ g.walk start ↔ ReflTransGen g.Follows start slot := Graph.mem_walk harena hindexed hlive
  have hsuccess' : last.outcome? = some .success ↔ ReflTransGen g.Follows start goal := by
    rw [houtcome, ← hwalk]
    split <;> simp_all
  have hmem : ∀ {id}, id ∈ expandedIds (steps ++ [last]) ↔ ∃ slot ∈ untilGoal goal (g.walk start), g.idOf? slot = some id := by
    intro id
    rw [hids, List.mem_filterMap]
  have hpart := untilGoal_sublist goal (g.walk start)
  refine ⟨steps, last, _, n.id, dist goal, hsteps, hlast, hfound, hgoalId, hlookup hgoalId, ?_, hsuccess',
    hsuccess'.trans hfinite.symm, ?_, fun id hid => ?_, ?_, fun hsuccess => ?_, fun hfailure id => ?_⟩
  · rw [houtcome]
    split
    · exact .inl rfl
    · exact .inr rfl
  · rw [hids]
    exact (hpart.nodup (Graph.nodup_walk harena)).filterMap fun a b id ha hb => harena.slot_unique ha hb
  · obtain ⟨slot, hslot, hid⟩ := hmem.mp hid
    exact ⟨slot, hid, hwalk.mp (hpart.subset hslot)⟩
  · rw [hids]
    have hlevels := (Graph.pairwise_level_walk harena hindexed hlive).sublist hpart
    have hdistances := hlevels.imp_of_mem (S := fun a b => dist a ≤ dist b) fun {a b} ha hb hle =>
      hordered (hwalk.mp (hpart.subset ha)) (hwalk.mp (hpart.subset hb)) hle
    refine hdistances.filterMap g.idOf? fun a b hle earlier hearlier later hlater => ?_
    exact ⟨dist a, dist b, hlookup hearlier, hlookup hlater, hle⟩
  · obtain ⟨before, hbefore⟩ := untilGoal_of_mem (hwalk.mpr (hsuccess'.mp hsuccess))
    rw [hids, hbefore, List.filterMap_append, List.filterMap_cons_some hgoalId, List.filterMap_nil, List.getLast?_concat]
  · have hmissed : goal ∉ g.walk start := fun hgoal => by
      rw [houtcome, if_pos hgoal] at hfailure
      cases hfailure
    rw [hmem, untilGoal_of_not_mem hmissed]
    constructor
    · rintro ⟨slot, hslot, hid⟩
      exact ⟨slot, hid, hwalk.mp hslot⟩
    · rintro ⟨slot, hid, hpath⟩
      exact ⟨slot, hwalk.mpr hpath, hid⟩

/-- Three nodes of which the first is the start and the last one the goal. -/
def Graph.shortcutToGoal : Graph := (Operation.setGoal (some 2)).run ((Operation.setStart (some 0)).run shortcut)

/-- A search from the first node that ends with the third. -/
theorem breadthFirst_solves_shortcut :
    (Graph.shortcutToGoal.Reachable ∧ Graph.shortcutToGoal.start = some 0 ∧ Graph.shortcutToGoal.goal = some 2) ∧
    ∃ (steps : List Step) (last : Step), solutionSteps breadthFirst Graph.shortcutToGoal = .ok (steps ++ [last]) ∧
      last.isTerminal = true ∧ last.outcome? = some .success ∧ (expandedIds (steps ++ [last])).Nodup ∧
      (expandedIds (steps ++ [last])).getLast? = some "C" := by
  have hreachable : Graph.shortcutToGoal.Reachable := (Graph.reachable_shortcut.run _).run _
  have hstart : Graph.shortcutToGoal.start = some 0 := rfl
  have hgoal : Graph.shortcutToGoal.goal = some 2 := rfl
  obtain ⟨steps, last, found, goalId, distance, hsteps, hlast, -, hid, -, -, hsuccess, -, hnodup, -, -, hends, -⟩ :=
    breadthFirst_solves hreachable hstart hgoal
  have hpath : ReflTransGen Graph.shortcutToGoal.Follows 0 2 :=
    .single ⟨⟨⟨⟨3⟩, 0, 2, false, [("w", .number (.float 2.5))], []⟩, false⟩, .tail _ (.tail _ (.head _)), rfl, rfl, rfl⟩
  have hgoalId : goalId = "C" := Option.some.inj (hid.symm.trans rfl)
  exact ⟨⟨hreachable, hstart, hgoal⟩, steps, last, hsteps, hlast.1, hsuccess.mpr hpath, hnodup,
    hgoalId ▸ hends (hsuccess.mpr hpath)⟩

end SearchLab
