import SearchLab.Proofs.Graph.Restoring
import SearchLab.Proofs.Replay.Batch
import SearchLab.Replay.Recorder

/-!
# Recorded changes that can be taken back

A step that sets a property knows the value that the property showed before, and to take the step back is to set this
value. It is checked as any other, so the way back is open just where the property shows a value that it takes itself.

* `Recorder.of_alter_one` — what such a step knows;
* `recorded_change_taken_back_iff` — which steps can be taken back;
* `start_is_not_taken_back` — that not all can.
-/

namespace SearchLab

namespace Change

variable {g g' : Graph}

theorem setAll_single (value : PropertyChange → Json) (c : PropertyChange) (g : Graph) :
    setAll value [c] g =
      match Graph.setProperty c.target c.property (value c) g with
      | .ok _ g' => .ok () g'
      | .error e g' => .error e g' := by
  cases h : Graph.setProperty c.target c.property (value c) g with
  | ok made g' => exact setAll_cons value h []
  | error e g' => exact Edit.bind_error (Edit.bind_error h)

theorem of_setAll_single (value : PropertyChange → Json) {c : PropertyChange} (h : setAll value [c] g = .ok () g') :
    ∃ made, Graph.setProperty c.target c.property (value c) g = .ok made g' := by
  rw [setAll_single] at h
  cases hwrite : Graph.setProperty c.target c.property (value c) g with
  | ok made g'' =>
      rw [hwrite] at h
      cases h
      exact ⟨made, rfl⟩
  | error e g'' =>
      rw [hwrite] at h
      cases h

end Change

/-- A step that sets one property knows the value that is shown before. -/
theorem Recorder.of_alter_one {r r' : Recorder} {target : Target} {name : String} {new shown : Json}
    (hpending : r.pending = []) (h : alter [(target, name, new)] shown r = .ok () r') :
    ∃ old, r.graph.getProperty target name = .ok old ∧
      r'.reversedSteps =
        ⟨shown, some (Change.setProperties [⟨target, name, old, new⟩]), false⟩ :: r.reversedSteps := by
  cases hold : r.graph.getProperty target name with
  | error e => simp [alter, changesOf, valueOf, hpending, hold] at h
  | ok old =>
      simp only [alter, changesOf, valueOf, hpending, hold, List.find?_nil] at h
      cases h
      exact ⟨old, rfl, rfl⟩

/-- **A change that was recorded can be taken back just where the property shows a value that it takes itself.** Whatever
one property of a reachable graph is set to by a step that was recorded on this graph, taking the command of the step back
succeeds, and the property shows what it showed before, exactly if it is `Restorable`. -/
theorem recorded_change_taken_back_iff {g : Graph} (hg : g.Reachable) (below : Layers) {r r' : Recorder}
    (hgraph : r.graph = g) (hpending : r.pending = []) {target : Target} {name : String} {new shown : Json}
    (hrecord : Recorder.alter [(target, name, new)] shown r = .ok () r') {c c' : Command Change} {layers : Layers}
    (hstep : r'.reversedSteps = ⟨shown, some c, false⟩ :: r.reversedSteps)
    (hexecute : Command.execute (c, g :: below) = .ok () (c', layers)) :
    ∃ old, g.getProperty target name = .ok old ∧
      (g.Restorable target name ↔
        ∃ g', Command.revert (c', layers) = .ok () (c, g' :: below) ∧ g'.getProperty target name = .ok old) := by
  subst hgraph
  obtain ⟨old, hold, hsteps⟩ := Recorder.of_alter_one hpending hrecord
  cases hstep.symm.trans hsteps
  rw [execute_batch rfl rfl] at hexecute
  cases hset : Change.setNew [⟨target, name, old, new⟩] r.graph with
  | error e g' =>
      rw [hset] at hexecute
      cases hexecute
  | ok u g' =>
      rw [hset] at hexecute
      cases hexecute
      obtain ⟨made, hwrite⟩ := Change.of_setAll_single PropertyChange.new hset
      obtain rfl := Graph.made_of_getProperty hg hold hwrite
      have hg' : g'.Reachable := Graph.run_setProperty hwrite ▸ hg.run (.setProperty target name new)
      refine ⟨old, hold, (Graph.restorable_iff_set_back hg hold hwrite).trans ?_⟩
      have hback : Change.setOld [⟨target, name, old, new⟩] g' = _ := Change.setAll_single PropertyChange.old _ g'
      rw [revert_batch rfl rfl, hback]
      cases hwritten : Graph.setProperty target name old g' with
      | error e g'' => simp
      | ok made g'' =>
          obtain rfl := Graph.made_of_getProperty hg' (Graph.getProperty_setProperty_eq hg.arena_indexed.1 hwrite) hwritten
          simp [Change.setProperties]

/-- An edge that is forbidden can be allowed again. -/
theorem recorded_change_taken_back_iff_sample :
    ∃ (r' : Recorder) (c c' : Command Change) (layers : Layers) (g' : Graph),
      Recorder.alter [(.edge ⟨1⟩, "forbidden", .bool true)] .null { base := Graph.shortcut } = .ok () r' ∧
      r'.reversedSteps = [⟨.null, some c, false⟩] ∧
      Command.execute (c, [Graph.shortcut]) = .ok () (c', layers) ∧
      Command.revert (c', layers) = .ok () (c, [g']) ∧
      g'.getProperty (.edge ⟨1⟩) "forbidden" = Graph.shortcut.getProperty (.edge ⟨1⟩) "forbidden" := by
  have hrecord : Recorder.alter [(.edge ⟨1⟩, "forbidden", .bool true)] .null { base := Graph.shortcut } = .ok () _ := rfl
  obtain ⟨old, hold, hiff⟩ := recorded_change_taken_back_iff Graph.reachable_shortcut [] rfl rfl hrecord rfl rfl
  obtain ⟨g', hrevert, hread⟩ := hiff.mp trivial
  exact ⟨_, _, _, _, g', rfl, rfl, rfl, hrevert, hread.trans hold.symm⟩

/-- Not every change that was recorded can be taken back: where there was no start, none can be set again. -/
theorem start_is_not_taken_back :
    ¬ ∀ (g : Graph) (below layers : Layers) (r r' : Recorder) (target : Target) (name : String) (new shown : Json)
      (c c' : Command Change), g.Reachable → r.graph = g → r.pending = [] →
        Recorder.alter [(target, name, new)] shown r = .ok () r' →
        r'.reversedSteps = ⟨shown, some c, false⟩ :: r.reversedSteps →
        Command.execute (c, g :: below) = .ok () (c', layers) →
        ∃ g', Command.revert (c', layers) = .ok () (c, g' :: below) ∧
          g'.getProperty target name = g.getProperty target name := by
  intro htaken
  have hstart := Graph.setProperty_start Graph.reachable_shortcut.arena_indexed.1 Graph.slot?_shortcut
  have hset : Change.setNew [⟨.graph, "start", .null, .text "A"⟩] Graph.shortcut = .ok () _ :=
    Change.setAll_cons PropertyChange.new hstart []
  have hexecute := execute_batch (c := Change.setProperties [⟨.graph, "start", .null, .text "A"⟩]) rfl rfl Graph.shortcut []
  rw [hset] at hexecute
  obtain ⟨g', hrevert, -⟩ := htaken Graph.shortcut [] _ { base := Graph.shortcut } _ .graph "start" (.text "A") .null _ _
    Graph.reachable_shortcut rfl rfl rfl rfl hexecute
  cases hrevert

end SearchLab
