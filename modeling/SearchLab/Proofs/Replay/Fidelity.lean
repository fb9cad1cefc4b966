import SearchLab.Proofs.Replay.Addresses

/-!
# Replays that can be trusted

A recorded search is loaded into a context and gone through in any order. Every position can be reached from every
other, and there are as many layers there as on the straight way. They look the same exactly when each step of the
recording knows what it replaces: otherwise the step itself, done and taken back, leaves something behind.

* `Context.tour_succeeds` — the replay goes anywhere;
* `Context.retraces_iff` — it looks the same there as on the straight way, where each command restores what was shown;
* `recorded_search_retraces_iff` — both together, for any calls of a search.
-/

namespace SearchLab

open Look

namespace Context

/-- Wherever a replay has been before, it looks at each position as if it had come straight there. -/
def Retraces (loaded : Context) : Prop :=
  ∀ (positions : List Nat) (position : Nat), (∀ p ∈ positions ++ [position], p ≤ loaded.log.size) →
    ∃ c straight, tour (positions ++ [position]) loaded = .ok () c ∧ visit position loaded = .ok () straight ∧
      c.layers.map Graph.look = straight.layers.map Graph.look

theorem Retraces.look_eq {loaded : Context} (h : loaded.Retraces) {positions : List Nat} {position : Nat}
    (hle : ∀ p ∈ positions ++ [position], p ≤ loaded.log.size) :
    ((tour (positions ++ [position])).after loaded).layers.map Graph.look =
      ((visit position).after loaded).layers.map Graph.look := by
  obtain ⟨c, straight, htour, hvisit, hlook⟩ := h positions position hle
  rw [Edit.after_ok htour, Edit.after_ok hvisit, hlook]

variable {R : Look → Look → Prop} {origin : List Look} {commands : List (Command Change)} {loaded : Context}

/-- A tour to a position and the straight way there both succeed, and end up with layers like those that the commands
before the position lead to. -/
theorem tour_and_visit (hR : Likeness R) (hplayable : Playable origin commands) (hrestoring : Restoring R origin commands)
    (h : Follows R origin commands loaded.log loaded.layers) {positions : List Nat} {position : Nat}
    (hle : ∀ p ∈ positions ++ [position], p ≤ loaded.log.size) :
    ∃ c straight, tour (positions ++ [position]) loaded = .ok () c ∧ visit position loaded = .ok () straight ∧
      List.Forall₂ R (c.layers.map Graph.look) (shownAfter origin (commands.take position)) ∧
      List.Forall₂ R (straight.layers.map Graph.look) (shownAfter origin (commands.take position)) := by
  rw [h.size] at hle
  have hposition : position ≤ commands.length := hle position (by simp)
  obtain ⟨m, htour, hm⟩ := tour_follows hR hplayable hrestoring h fun p hp => hle p (List.mem_append_left _ hp)
  obtain ⟨c, hvisit, hc, hat⟩ := visit_follows hR hplayable (fun _ => hrestoring) hm hposition
  obtain ⟨straight, hstraight, hs, hat'⟩ := visit_follows hR hplayable (fun _ => hrestoring) h hposition
  have hrun : tour (positions ++ [position]) loaded = .ok () c :=
    (Edit.forM_append htour).trans ((Edit.bind_ok hvisit).trans rfl)
  exact ⟨c, straight, hrun, hstraight, hat ▸ hc.shows, hat' ▸ hs.shows⟩

/-- A replay goes anywhere, and has as many layers there as on the straight way. -/
theorem tour_succeeds (hplayable : Playable origin commands)
    (h : Follows Matches origin commands loaded.log loaded.layers) {positions : List Nat} {position : Nat}
    (hle : ∀ p ∈ positions ++ [position], p ≤ loaded.log.size) :
    ∃ c straight, tour (positions ++ [position]) loaded = .ok () c ∧ visit position loaded = .ok () straight ∧
      c.layers.length = straight.layers.length := by
  obtain ⟨c, straight, htour, hvisit, hc, hs⟩ :=
    tour_and_visit likeness_matches hplayable (restoring_matches hplayable) h hle
  have hlength := hc.length_eq.trans hs.length_eq.symm
  rw [List.length_map, List.length_map] at hlength
  exact ⟨c, straight, htour, hvisit, hlength⟩

/-- A replay looks the same everywhere as on the straight way exactly when each command restores what was shown. -/
theorem retraces_iff (hplayable : Playable origin commands)
    (h : Follows (· = ·) origin commands loaded.log loaded.layers) (hstart : loaded.log.executed = 0) :
    loaded.Retraces ↔ Restoring (· = ·) origin commands := by
  constructor
  · -- One position on and back is enough to see what a command leaves behind.
    intro hretraces i command hcommand
    have hlt : i < commands.length := (List.getElem?_eq_some_iff.mp hcommand).1
    have hle : i ≤ commands.length := Nat.le_of_lt hlt
    have hforward : ∀ position, position < loaded.log.executed → Restoring (· = ·) origin commands :=
      fun position hback => absurd hback (by omega)
    obtain ⟨m, hon, hm, hat⟩ := visit_follows likeness_eq hplayable (hforward _) h hlt
    obtain ⟨c, hback, hc⟩ := visit_back likeness_eq hplayable hcommand hm hat
    obtain ⟨straight, hstraight, hs, hat'⟩ := visit_follows likeness_eq hplayable (hforward _) h hle
    have hrun : tour ([i + 1] ++ [i]) loaded = .ok () c := (Edit.bind_ok hon).trans ((Edit.bind_ok hback).trans rfl)
    have hwithin : ∀ p ∈ [i + 1] ++ [i], p ≤ loaded.log.size := by
      rw [h.size]
      simp only [List.cons_append, List.nil_append, List.mem_cons, List.not_mem_nil, or_false]
      omega
    have hlook := hretraces.look_eq hwithin
    rw [Edit.after_ok hrun, Edit.after_ok hstraight] at hlook
    have hshows := hs.shows
    rw [hat', List.forall₂_eq_eq_eq, ← hlook] at hshows
    rw [List.forall₂_eq_eq_eq] at hc
    rw [List.forall₂_eq_eq_eq]
    exact hc.symm.trans hshows
  · intro hrestoring positions position hle
    obtain ⟨c, straight, htour, hvisit, hc, hs⟩ := tour_and_visit likeness_eq hplayable hrestoring h hle
    rw [List.forall₂_eq_eq_eq] at hc hs
    exact ⟨c, straight, htour, hvisit, hc.trans hs.symm⟩

end Context

/-- **A recorded search retraces its steps exactly when each of them knows what it replaces.** Take a graph on which no
search has ended and whose nodes are in a state that a replay can give back, and any calls of a search to a recorder,
also failing ones, the graphs that it pushes being of the same sort. Its steps can be loaded into a context of the
graph. From wherever the replay has been, it reaches every position of the log, and has as many layers there as if it
had come straight from the start. The outcome, the states of the nodes, and the nodes and edges that are pointed at are
in each layer the same as on the straight way, for all ways, exactly when no outcome is recorded on a graph that has
one, and whenever a step sets properties, its first old value for a spot is the latest value queued there, under
whichever address. -/
theorem recorded_search_retraces_iff {g : Graph} (hg : g.Replayable) {calls : List Recorder.Call}
    (hcalls : ∀ call ∈ calls, call.Replayable) :
    ∃ loaded,
      Context.loadSteps (Recorder.record g calls).steps (.ofGraph (some g)) =
        .ok (Recorder.record g calls).commands.length loaded ∧
      loaded.log.size = (Recorder.record g calls).commands.length ∧
      (∀ positions position, (∀ p ∈ positions ++ [position], p ≤ loaded.log.size) →
        ∃ c straight, Context.tour (positions ++ [position]) loaded = .ok () c ∧
          Context.visit position loaded = .ok () straight ∧ c.layers.length = straight.layers.length) ∧
      (loaded.Retraces ↔ Recorder.Knowing { base := g } calls) := by
  have hforetold := (Recorder.foretold_foldl (Recorder.foretold_start hg) hcalls).1
  refine ⟨_, Context.loadSteps_ofGraph g _, by simp [Log.size, Recorder.commands], ?_, ?_⟩
  · intro positions position hle
    exact Context.tour_succeeds hforetold.playable (Context.follows_loaded likeness_matches hforetold.playable) hle
  · rw [Context.retraces_iff hforetold.playable (Context.follows_loaded likeness_eq hforetold.playable) rfl]
    exact Recorder.restoring_iff_knowing hg hcalls

namespace Graph

/-- Two nodes and an edge from one to the other. -/
def bridge : Graph := ((Graph.empty.withNode "A" 0 0 []).withNode "B" 0 0 []).withEdge 0 1 false []

theorem replayable_bridge : bridge.Replayable where
  outcome := rfl
  states := by
    intro slot n hn
    have hnode : ((Graph.empty.withNode "A" 0 0 []).withNode "B" 0 0 []).node? slot = some n := hn
    rw [node?_withNode, node?_withNode] at hnode
    split at hnode
    · cases hnode
      decide
    · split at hnode
      · cases hnode
        decide
      · exact absurd hnode (by simp [Graph.empty, node?])

theorem unambiguous_bridge : bridge.Unambiguous := by
  have hslots : ∀ other, bridge.slots[other]? =
      if "B" = other then some 1 else if "A" = other then some 0 else none := by
    intro other
    simp [bridge, withNode, withEdge, Std.HashMap.getElem?_insert, Graph.empty]
  intro id id' slot hid hid'
  rw [hslots] at hid hid'
  grind

end Graph

/-- A search that visits a node, points at the edge and back from it, succeeds, and then fails on another graph. -/
theorem recorded_search_retraces_sample :
    let calls : List Recorder.Call :=
      [.visit 0 .null, .point true [.edge ⟨1⟩, .node "B"] .null, .expand 0 .null, .point false [.edge ⟨1⟩] .null,
        .success .null, .create Graph.bridge .null, .point true [.edge ⟨1⟩] .null, .failure .null]
    Graph.bridge.Replayable ∧ (∀ call ∈ calls, call.Replayable) ∧
      ∃ loaded,
        Context.loadSteps (Recorder.record Graph.bridge calls).steps (.ofGraph (some Graph.bridge)) =
          .ok (Recorder.record Graph.bridge calls).commands.length loaded ∧
        loaded.Retraces := by
  intro calls
  have hcalls : ∀ call ∈ calls, call.Replayable := by
    simp [calls, Recorder.Call.Replayable, Graph.replayable_bridge]
  obtain ⟨loaded, hload, -, -, hiff⟩ := recorded_search_retraces_iff Graph.replayable_bridge hcalls
  refine ⟨Graph.replayable_bridge, hcalls, loaded, hload, hiff.mpr ?_⟩
  have hstart : Recorder.OneWay (· = ⟨1⟩) false { base := Graph.bridge } :=
    { unambiguous := Graph.unambiguous_bridge
      apart := by
        rintro id rfl
        decide
      queued := by simp
      unended := fun _ => rfl }
  refine Recorder.knowing_of_oneWay hstart ?_ ?_
  · simp [calls, Recorder.Call.Unambiguous, Recorder.Call.targets, Graph.unambiguous_bridge]
  · simp [calls, Recorder.EndsOnce]

/-- The context of two nodes and an edge, with what some calls have recorded there loaded. -/
def Context.onBridge (calls : List Recorder.Call) : Context :=
  (Context.loadSteps (Recorder.record Graph.bridge calls).steps).after (.ofGraph (some Graph.bridge))

/-- A success that is recorded twice is lost when the second one is taken back. -/
theorem success_lost :
    ((Context.tour [2, 1]).after (.onBridge [.success .null, .success .null])).layers.map Graph.outcome = [.none] ∧
      ((Context.visit 1).after (.onBridge [.success .null, .success .null])).layers.map Graph.outcome = [.success] := by
  decide +kernel

/-- An edge that is pointed at in one direction and then in the other is not pointed at any more when the second step is
taken back. -/
theorem pointing_lost :
    ((Context.tour [2, 1]).after (.onBridge
        [.point true [.edge ⟨1⟩] .null, .point true [.edge ⟨-1⟩] .null])).layers.map (fun g => g.shown (.edge 0)) =
      [some (.bool false)] ∧
    ((Context.visit 1).after (.onBridge
        [.point true [.edge ⟨1⟩] .null, .point true [.edge ⟨-1⟩] .null])).layers.map (fun g => g.shown (.edge 0)) =
      [some (.bool true)] := by
  constructor <;> rfl

/-- A replay does not retrace every recording: a success that is recorded twice is lost on the way back from the second
step to the first, and so is the mark at an edge that the steps point at in either direction. -/
theorem retraces_fails_on_bridge :
    Graph.bridge.Replayable ∧
      ¬ (Context.onBridge [.success .null, .success .null]).Retraces ∧
      ¬ (Context.onBridge [.point true [.edge ⟨1⟩] .null, .point true [.edge ⟨-1⟩] .null]).Retraces := by
  refine ⟨Graph.replayable_bridge, fun hretraces => ?_, fun hretraces => ?_⟩
  · obtain ⟨hback, hstraight⟩ := success_lost
    have hwithin : ∀ p ∈ [2] ++ [1], p ≤ (Context.onBridge [.success .null, .success .null]).log.size := by
      decide +kernel
    have hsame := congrArg (List.map Look.outcome) (hretraces.look_eq hwithin)
    rw [List.map_map, List.map_map] at hsame
    exact absurd (hback.symm.trans (hsame.trans hstraight)) (by decide)
  · obtain ⟨hback, hstraight⟩ := pointing_lost
    have hwithin : ∀ p ∈ [2] ++ [1],
        p ≤ (Context.onBridge [.point true [.edge ⟨1⟩] .null, .point true [.edge ⟨-1⟩] .null]).log.size := by
      decide +kernel
    have hsame := congrArg (List.map fun l => l.shown (.edge 0)) (hretraces.look_eq hwithin)
    rw [List.map_map, List.map_map] at hsame
    exact absurd (hback.symm.trans (hsame.trans hstraight)) (by simp)

end SearchLab
