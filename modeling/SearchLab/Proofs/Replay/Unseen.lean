import SearchLab.Proofs.History.Upheld
import SearchLab.Proofs.Notation.Lasting
import SearchLab.Proofs.Replay.Fidelity

/-!
# Replays that a document does not show

All that a search on one graph records are marks: how far it has come, what it points at, and how it ended. A mark does
not last, whether it is set, taken back, or refused half-way through a step. So a replay may go anywhere in the log, and
may be stopped anywhere: the document of the graph that is shown stays the same.

* `Graph.setProperty_keeps_lasting` — setting a mark, also where that fails;
* `Change.upholds_lasting` — a change that sets marks, done or taken back;
* `Recorder.marks_of_record` — a search on one graph records no other changes;
* `replay_unseen` — the document of the graph shown in a replay.
-/

namespace SearchLab

open Look

/-! ## Single marks -/

theorem Look.mem_transientKeys {property : String} (h : Tracked property) : property ∈ Node.transientKeys := by
  rcases h with rfl | rfl <;> decide

namespace Graph

variable {lasts : Graph}

theorem redraw_keeps_lasting : Edit.Keeps (fun g : Graph => g.lasting = lasts) (modify redraw) :=
  .modify fun _ hg => hg

theorem applyToGraph_keeps_lasting {property : String} (h : Tracked property) (value : Json) :
    Edit.Keeps (fun g : Graph => g.lasting = lasts) (applyToGraph property value) := by
  rcases h with rfl | rfl <;> exact .pure false

theorem applyToNode_keeps_lasting {property : String} (h : Tracked property) (slot : Nat) (value : Json) :
    Edit.Keeps (fun g : Graph => g.lasting = lasts) (applyToNode slot property value) := by
  have hset : ∀ g : Graph, g.lasting = lasts →
      (g.modifyNode slot fun n => { n with data := n.data.set property value }).lasting = lasts :=
    fun g hg => (lasting_modifyNode (mem_transientKeys h) g slot value).trans hg
  rcases h with rfl | rfl <;>
    exact .bind_get fun g hg => .bind (.set (hset g hg)) fun _ => .bind (.require _ _) fun _ => .pure true

theorem applyToEdge_keeps_lasting {property : String} (h : Tracked property) (id : EdgeId) (value : Json) :
    Edit.Keeps (fun g : Graph => g.lasting = lasts) (applyToEdge id property value) := by
  have hset : ∀ g : Graph, g.lasting = lasts →
      (g.modifyEdge id fun e => { e with data := e.data.set property value }).lasting = lasts :=
    fun g hg => (lasting_modifyEdge (mem_transientKeys h) g id value).trans hg
  refine .bind redraw_keeps_lasting fun _ => .bind_get fun g hg => .bind (.require _ _) fun _ => ?_
  rcases h with rfl | rfl
  · -- Edges have no state.
    exact .pure false
  · exact .bind (.set (hset g hg)) fun _ => .pure true

/-- A mark that is set does not last, nor does what is left where it is refused. -/
theorem setProperty_keeps_lasting {property : String} (h : Tracked property) (target : Target) (value : Json) :
    Edit.Keeps (fun g : Graph => g.lasting = lasts) (setProperty target property value) := by
  have hlast : ∀ applied : Bool, Edit.Keeps (fun g : Graph => g.lasting = lasts)
      (if applied then do
        modify redraw
        return applied
      else return applied) := by
    intro applied
    cases applied with
    | false => exact .pure false
    | true => exact .bind redraw_keeps_lasting fun _ => .pure true
  refine .bind (.check _) fun properties => .bind (.check _) fun found => ?_
  cases found with
  | none => exact .pure false
  | some p =>
      cases target with
      | graph => exact .bind (applyToGraph_keeps_lasting h value) hlast
      | node id => exact .bind (.check _) fun slot => .bind (applyToNode_keeps_lasting h slot value) hlast
      | edge id => exact .bind (applyToEdge_keeps_lasting h id value) hlast

end Graph

/-! ## The changes of a search -/

namespace Change

/-- A change that only sets marks. -/
def Marks : Change → Prop
  | .outcome _ => True
  | .properties changes => ∀ c ∈ changes, Tracked c.property
  | _ => False

/-- What the top layer keeps, the layers keep. -/
theorem onTop_keeps_lasting {lasts : List Graph} {edit : Edit Graph Unit}
    (h : ∀ top, Edit.Keeps (fun g : Graph => g.lasting = top) edit) :
    Edit.Keeps (fun layers : Layers => layers.map Graph.lasting = lasts) (onTop edit) := by
  intro layers hlasts
  cases layers with
  | nil => exact hlasts
  | cons g below =>
      have htop := h g.lasting g rfl
      unfold Edit.after at htop
      cases hrun : edit g <;> rw [hrun] at htop <;>
        · rw [← hlasts]
          simp only [Edit.after, onTop, hrun, List.map_cons, htop]

/-- A change that stays as it is keeps what its edit keeps. -/
theorem keeping_keeps {change : Change} (hmarks : change.Marks) {P : Layers → Prop} {edit : Edit Layers Unit}
    (h : Edit.Keeps P edit) {layers : Layers} (hlayers : P layers) :
    ((Edit.after (fun s : Change × Layers => keeping change edit s.2) (change, layers)).1.Marks) ∧
      P (Edit.after (fun s : Change × Layers => keeping change edit s.2) (change, layers)).2 := by
  have hkept := h layers hlayers
  unfold Edit.after keeping at *
  cases hrun : edit layers <;> simpa [hrun] using ⟨hmarks, by simpa [hrun] using hkept⟩

theorem markOutcome_keeps_lasting (outcome : Outcome) (lasts : Graph) :
    Edit.Keeps (fun g : Graph => g.lasting = lasts) (markOutcome outcome) :=
  .modify fun g hg => by split <;> exact hg

theorem unmarkOutcome_keeps_lasting (outcome : Outcome) (lasts : Graph) :
    Edit.Keeps (fun g : Graph => g.lasting = lasts) (unmarkOutcome outcome) :=
  .modify fun g hg => by split <;> exact hg

/-- **A change that sets marks leaves what lasts of the layers**, done or taken back, and also where it stops half-way. -/
theorem upholds_lasting (lasts : List Graph) :
    Upholds Marks fun layers : Layers => layers.map Graph.lasting = lasts where
  applied := by
    rintro ⟨change, layers⟩ ⟨hmarks, hlayers⟩
    cases change with
    | outcome o => exact keeping_keeps hmarks (onTop_keeps_lasting (markOutcome_keeps_lasting o)) hlayers
    | properties changes =>
        refine keeping_keeps hmarks (onTop_keeps_lasting fun top => .forM fun c hc => ?_) hlayers
        exact .bind (Graph.setProperty_keeps_lasting (hmarks c hc) c.target c.new) fun _ => .pure ()
    | layer held => cases hmarks
    | toggle id previous => cases hmarks
    | custom forward backward => cases hmarks
  reverted := by
    rintro ⟨change, layers⟩ ⟨hmarks, hlayers⟩
    cases change with
    | outcome o => exact keeping_keeps hmarks (onTop_keeps_lasting (unmarkOutcome_keeps_lasting o)) hlayers
    | properties changes =>
        refine keeping_keeps hmarks (onTop_keeps_lasting fun top => .forM fun c hc => ?_) hlayers
        exact .bind (Graph.setProperty_keeps_lasting (hmarks c (List.mem_reverse.mp hc)) c.target c.old)
          fun _ => .pure ()
    | layer held => cases hmarks
    | toggle id previous => cases hmarks
    | custom forward backward => cases hmarks

end Change

/-! ## The recording of a search -/

namespace Recorder

/-- A call that stays on the graph. -/
def Call.Stays : Call → Prop
  | .create _ _ => False
  | _ => True

/-- All commands of some steps set marks only. -/
def Marking (r : Recorder) : Prop := ∀ step ∈ r.reversedSteps, ∀ c, step.command = some c → c.body.Marks

theorem marking_push {r : Recorder} (h : r.Marking) {shown : Json} {command : Option (Command Change)}
    (hcommand : ∀ c, command = some c → c.body.Marks) (isTerminal : Bool) :
    (r.push shown command isTerminal).Marking := by
  intro step hstep c hc
  rcases List.mem_cons.mp hstep with rfl | hstep
  · exact hcommand c hc
  · exact h step hstep c hc

theorem marking_alter {news : List (Target × String × Json)} (hnews : ∀ n ∈ news, Tracked n.2.1) (shown : Json) :
    Edit.Keeps Marking (alter news shown) := by
  intro r hr
  rcases r.after_alter news shown with hsame | ⟨changes, hchanges, hrun⟩
  · rwa [hsame]
  · rw [hrun]
    refine marking_push (r := r) hr ?_ false
    rintro _ ⟨⟩ c hc
    exact hnews _ (valueOf_of_changesOf hchanges hc).1

theorem marking_setState (word : String) (slot : Nat) (shown : Json) :
    Edit.Keeps Marking (setState word slot shown) := by
  intro r hr
  rcases r.after_setState word slot shown with hsame | ⟨id, halter⟩
  · rwa [hsame]
  · rw [halter]
    exact marking_alter (by simp [Tracked]) shown r hr

/-- A call that stays on the graph records marks only. -/
theorem marking_run {call : Call} (hcall : call.Stays) {r : Recorder} (hr : r.Marking) : (call.run r).Marking := by
  cases call with
  | visit slot shown => exact marking_setState _ slot shown r hr
  | expand slot shown => exact marking_setState _ slot shown r hr
  | point on targets shown => exact marking_alter (by simp [Tracked]) shown r hr
  | log shown => exact marking_push hr (by simp) false
  | success shown => exact marking_push hr (by rintro _ ⟨⟩; trivial) true
  | failure shown => exact marking_push hr (by rintro _ ⟨⟩; trivial) true
  | create g shown => cases hcall

/-- A search that stays on its graph records marks only. -/
theorem marks_of_record (g : Graph) {calls : List Call} (hcalls : ∀ call ∈ calls, call.Stays) :
    ∀ c ∈ (record g calls).commands, c.body.Marks := by
  have hmarking : (record g calls).Marking := by
    have hstart : Marking { base := g } := by simp [Marking]
    exact List.foldlRecOn calls Call.run hstart fun r hr call hcall => marking_run (hcalls call hcall) hr
  intro c hc
  obtain ⟨step, hstep, hcommand⟩ := List.mem_filterMap.mp hc
  exact hmarking step (List.mem_reverse.mp hstep) c hcommand

end Recorder

/-! ## The replay -/

namespace Context

/-- A move in a replay: the log is asked for a place, or the layers are brought to where it stands. -/
inductive Move where
  | seek (position : Nat)
  | catchUp

/-- What a move does. -/
def Move.edit : Move → Edit Context Unit
  | .seek position => onLog (Log.seek position)
  | .catchUp => do let _ ← Context.catchUp

/-- The context behind a move, also when it fails. -/
def Move.run (c : Context) (move : Move) : Context := move.edit.after c

/-- A replay in which only marks are set, and what lasts of its layers. -/
structure Marking (lasts : List Graph) (c : Context) : Prop where
  log : c.log.Consists Change.Marks
  layers : c.layers.map Graph.lasting = lasts

/-- A move sets and takes away marks only. -/
theorem Marking.run {lasts : List Graph} {c : Context} (h : c.Marking lasts) (move : Move) :
    (move.run c).Marking lasts := by
  cases move with
  | seek position =>
      have hmoved : (Move.run c (.seek position)).layers = c.layers ∧
          ((Move.run c (.seek position)).log = c.log ∨
            (Move.run c (.seek position)).log = { c.log with current := position }) := by
        unfold Move.run Move.edit Edit.after onLog Edit.onPart Log.seek
        by_cases hfar : c.log.size < position <;> simp [hfar]
      obtain ⟨hlayers, hlog | hlog⟩ := hmoved
      · exact ⟨hlog ▸ h.log, hlayers ▸ h.layers⟩
      · exact ⟨hlog ▸ { h.log with }, hlayers ▸ h.layers⟩
  | catchUp =>
      have hkept := (Change.upholds_lasting lasts).catchUp (c.log, c.layers) ⟨h.log, h.layers⟩
      unfold Edit.after at hkept
      cases hrun : Log.catchUp (c.log, c.layers) with
      | ok touched s =>
          have hmove : Move.run c .catchUp = { layers := s.2, log := s.1 } := by
            have hcatch : Context.catchUp c = .ok touched { layers := s.2, log := s.1 } := by
              simp [Context.catchUp, hrun]
            exact Edit.after_ok (Edit.bind_ok hcatch)
          rw [hrun] at hkept
          rw [hmove]
          exact ⟨hkept.1, hkept.2⟩
      | error e s =>
          have hmove : Move.run c .catchUp = { layers := s.2, log := s.1 } := by
            have hcatch : Context.catchUp c = .error e { layers := s.2, log := s.1 } := by
              simp [Context.catchUp, hrun]
            exact Edit.after_error (Edit.bind_error hcatch)
          rw [hrun] at hkept
          rw [hmove]
          exact ⟨hkept.1, hkept.2⟩

end Context

/-- **A replay does not show in the document.** Take any graph, and any calls of a search to a recorder that stay on it,
also failing ones. Its steps can be loaded into a context of the graph. Wherever the log is then asked to go, and
however often the layers are brought there, also where that stops half-way because a command fails: the document of the
graph that is shown is the document of the graph that the search began on. -/
theorem replay_unseen (g : Graph) {calls : List Recorder.Call} (hcalls : ∀ call ∈ calls, call.Stays) :
    ∃ loaded,
      Context.loadSteps (Recorder.record g calls).steps (.ofGraph (some g)) =
        .ok (Recorder.record g calls).commands.length loaded ∧
      ∀ moves : List Context.Move, ∃ shown,
        (moves.foldl Context.Move.run loaded).graph? = some shown ∧ Notation.write shown = Notation.write g := by
  refine ⟨_, Context.loadSteps_ofGraph g _, fun moves => ?_⟩
  have hmarks := Recorder.marks_of_record g hcalls
  have hloaded : Context.Marking [g.lasting]
      { layers := [g], log := { commands := ((Recorder.record g calls).steps.filterMap Step.command).toArray } } :=
    { log :=
        { commands := fun i c hc => hmarks c (Array.mem_of_getElem? hc |> List.mem_toArray.mp)
          detached := by simp }
      layers := rfl }
  have hmoved := List.foldlRecOn moves Context.Move.run hloaded fun c hc move _ => hc.run move
  obtain ⟨shown, below, hlayers, hshown, -⟩ := List.map_eq_cons_iff.mp hmoved.layers
  refine ⟨shown, ?_, Notation.write_eq_of_lasting_eq hshown⟩
  rw [Context.graph?, hlayers]
  rfl

/-- A replay that goes back and forth, and is once asked for a place that is not there, ends on a graph that is marked as
a success; the document has nothing of it. -/
theorem replay_unseen_sample :
    let calls : List Recorder.Call := [.point true [.edge ⟨1⟩] .null, .log .null, .success .null]
    let moves : List Context.Move := [.seek 2, .catchUp, .seek 9, .seek 1, .catchUp, .seek 2, .catchUp]
    (∀ call ∈ calls, call.Stays) ∧
      (moves.foldl Context.Move.run (.onBridge calls)).layers.map Graph.outcome = [.success] ∧
      ∃ shown, (moves.foldl Context.Move.run (.onBridge calls)).graph? = some shown ∧
        Notation.write shown = Notation.write Graph.bridge := by
  intro calls moves
  have hcalls : ∀ call ∈ calls, call.Stays := by simp [calls, Recorder.Call.Stays]
  obtain ⟨loaded, hload, hunseen⟩ := replay_unseen Graph.bridge hcalls
  have hloaded : Context.onBridge calls = loaded := Edit.after_ok hload
  refine ⟨hcalls, by decide +kernel, ?_⟩
  rw [hloaded]
  exact hunseen moves

end SearchLab
