import Mathlib.Data.List.Find
import SearchLab.Proofs.Replay.Recording

/-!
# What is recorded under one address

On a graph whose ids lead to different nodes, nothing but an edge has two addresses: its two directions. A search that
points at no edge in both directions queues everything under one address, and what the queue holds for an address is
then the latest value of what is addressed. If besides the search ends at most once on each graph, all of its steps know
what they replace.

* `spot?_unique` — what has the same spot has the same address, or is the same edge backwards;
* `knowing_of_oneWay` — the steps of such a search know.
-/

namespace SearchLab

open Look

/-- Different ids lead to different slots. -/
def Graph.Unambiguous (g : Graph) : Prop :=
  ∀ {id id' : String} {slot : Nat}, g.slots[id]? = some slot → g.slots[id']? = some slot → id = id'

theorem Graph.Arena.unambiguous {g : Graph} (h : g.Arena) : g.Unambiguous := by
  intro id id' slot hid hid'
  obtain ⟨n, hn, rfl⟩ := (h.lookup id slot).mp hid
  obtain ⟨n', hn', rfl⟩ := (h.lookup id' slot).mp hid'
  rw [Option.some.inj (hn.symm.trans hn')]

/-- Two addresses of one spot are the same, or the two directions of an edge. -/
theorem spot?_unique {g : Graph} (hg : g.Unambiguous) {target target' : Target} {property property' : String} {spot : Spot}
    (h : spot? g.slots target property = some spot) (h' : spot? g.slots target' property' = some spot) :
    (target', property') = (target, property) ∨ ∃ id, target = .edge id ∧ target' = .edge id.reversed := by
  unfold spot? at h h'
  split at h
  · obtain ⟨slot, hslot, rfl⟩ := Option.map_eq_some_iff.mp h
    split at h' <;> simp only [Option.map_eq_some_iff, reduceCtorEq, and_false, exists_false, Spot.state.injEq,
      exists_eq_right] at h'
    rw [hg hslot h']
    exact .inl rfl
  · obtain ⟨slot, hslot, rfl⟩ := Option.map_eq_some_iff.mp h
    split at h' <;> simp only [Option.map_eq_some_iff, reduceCtorEq, and_false, exists_false, Spot.node.injEq,
      exists_eq_right] at h'
    rw [hg hslot h']
    exact .inl rfl
  · obtain ⟨place, hplace, rfl⟩ := Option.map_eq_some_iff.mp h
    split at h' <;> simp only [Option.map_eq_some_iff, reduceCtorEq, and_false, exists_false, Spot.edge.injEq,
      exists_eq_right] at h'
    rcases Graph.place?_eq_some_iff.mp hplace with rfl | rfl <;>
      rcases Graph.place?_eq_some_iff.mp h' with rfl | rfl
    · exact .inl rfl
    · exact .inr ⟨_, rfl, rfl⟩
    · refine .inr ⟨_, rfl, ?_⟩
      simp [EdgeId.reversed]
    · exact .inl rfl
  · exact absurd h (by simp)

namespace Recorder

variable {r : Recorder}

/-- Where the queue holds nothing for a spot under another address, the value that a recorder names is the latest. -/
theorem latest_of_valueOf {target : Target} {property : String} {spot : Spot} {value : Json}
    (htracked : Tracked property) (hspot : spot? r.graph.slots target property = some spot)
    (hone : ∀ q ∈ r.pending, spot? r.graph.slots q.1.1 q.1.2 = some spot → q.1 = (target, property))
    (hvalue : r.valueOf target property = .ok value) : r.latest spot = some value := by
  have hfind : r.pending.find? (fun q => spot? r.graph.slots q.1.1 q.1.2 = some spot) =
      r.pending.find? fun q => q.1 = (target, property) := by
    refine List.find?_congr fun q hq => decide_eq_decide.mpr ⟨hone q hq, fun hkey => ?_⟩
    rw [hkey]
    exact hspot
  simp only [latest, topmost?, hfind]
  unfold valueOf at hvalue
  split at hvalue
  · rename_i key queued hqueued
    cases hvalue
    simp [hqueued]
  · rename_i hnone
    obtain ⟨other, hother, hshown⟩ := (r.graph.getProperty_eq_ok_iff htracked value).mp hvalue
    obtain rfl : other = spot := Option.some.inj (hother.symm.trans hspot)
    simp [hnone, hshown]

/-- A step that sets properties for which nothing was queued under another address knows what it replaces. -/
theorem knowsLast_alter {news : List (Target × String × Json)} (shown : Json) (htracked : ∀ n ∈ news, Tracked n.2.1)
    (hone : ∀ n ∈ news, ∀ q ∈ r.pending, ∀ spot, spot? r.graph.slots n.1 n.2.1 = some spot →
      spot? r.graph.slots q.1.1 q.1.2 = some spot → q.1 = (n.1, n.2.1)) :
    KnowsLast r (Edit.after (alter news shown) r) := by
  intro step c hstep hcommand
  rcases r.after_alter news shown with hsame | ⟨changes, hchanges, hrun⟩
  · rw [hsame] at hstep
    exact absurd hstep (List.cons_ne_self step r.reversedSteps).symm
  · rw [hrun] at hstep
    cases hstep
    cases hcommand
    intro spot value htopmost
    obtain ⟨v, hv, rfl⟩ := Option.map_eq_some_iff.mp htopmost
    obtain ⟨d, hd, rfl⟩ := List.mem_map.mp (List.mem_of_find?_eq_some hv)
    have hspot : spot? r.graph.slots d.target d.property = some spot := by simpa using List.find?_some hv
    obtain ⟨hmem, hvalue⟩ := valueOf_of_changesOf hchanges hd
    exact latest_of_valueOf (htracked _ hmem) hspot (fun q hq hother => hone _ hmem q hq spot hspot hother) hvalue

/-! ## Searches that point one way -/

/-- The targets that a call points at, or no longer points at. -/
def Call.targets : Call → List Target
  | .point _ targets _ => targets
  | _ => []

/-- Different ids lead to different slots on a graph that a call lays on top. -/
def Call.Unambiguous : Call → Prop
  | .create g _ => g.Unambiguous
  | _ => True

/-- A search ends at most once on each graph, if it has not `ended` on the one on top. -/
def EndsOnce : Bool → List Call → Prop
  | _, [] => True
  | _, .create _ _ :: rest => EndsOnce false rest
  | ended, .success _ :: rest | ended, .failure _ :: rest => ended = false ∧ EndsOnce true rest
  | ended, _ :: rest => EndsOnce ended rest

/-- What is known of a recorder while a search points at edges of one set only, none of them in both directions: the
queue is about no others. If the search has not `ended` on the graph on top, no step there has ended it. -/
structure OneWay (edges : EdgeId → Prop) (ended : Bool) (r : Recorder) : Prop where
  unambiguous : r.graph.Unambiguous
  apart : ∀ {id}, edges id → ¬ edges id.reversed
  queued : ∀ q ∈ r.pending, ∀ id, q.1.1 = .edge id → edges id
  unended : ended = false → ending r.reversedSteps = .none

namespace OneWay

variable {edges : EdgeId → Prop} {ended : Bool}

/-- A step that sets properties knows what it replaces, and leaves things as they are. -/
theorem alter (h : OneWay edges ended r) {news : List (Target × String × Json)} (shown : Json)
    (hnews : ∀ n ∈ news, Tracked n.2.1 ∧ ∀ id, n.1 = .edge id → edges id) :
    KnowsLast r (Edit.after (Recorder.alter news shown) r) ∧ OneWay edges ended (Edit.after (Recorder.alter news shown) r) := by
  constructor
  · refine knowsLast_alter shown (fun n hn => (hnews n hn).1) fun n hn q hq spot hspot hother => ?_
    rcases spot?_unique h.unambiguous hspot hother with hsame | ⟨id, htarget, hreversed⟩
    · exact hsame
    · exact absurd (h.queued q hq _ hreversed) (h.apart ((hnews n hn).2 id htarget))
  · rcases r.after_alter news shown with hsame | ⟨changes, hchanges, hrun⟩
    · rw [hsame]
      exact h
    · rw [hrun]
      refine { unambiguous := h.unambiguous, apart := h.apart, queued := ?_, unended := h.unended }
      intro q hq id hid
      rcases List.mem_append.mp hq with hq | hq
      · obtain ⟨c, hc, rfl⟩ := List.mem_map.mp hq
        exact (hnews _ (valueOf_of_changesOf hchanges (List.mem_reverse.mp hc)).1).2 id hid
      · exact h.queued q hq id hid

theorem setState (h : OneWay edges ended r) (word : String) (slot : Nat) (shown : Json) :
    KnowsLast r (Edit.after (Recorder.setState word slot shown) r) ∧
      OneWay edges ended (Edit.after (Recorder.setState word slot shown) r) := by
  rcases r.after_setState word slot shown with hsame | ⟨id, halter⟩
  · rw [hsame]
    exact ⟨fun step c hstep => absurd hstep (List.cons_ne_self step r.reversedSteps).symm, h⟩
  · rw [halter]
    refine h.alter shown fun n hn => ?_
    obtain rfl := List.mem_singleton.mp hn
    exact ⟨.inl rfl, fun id hid => absurd hid (by simp)⟩

theorem point (h : OneWay edges ended r) (on : Bool) {targets : List Target} (shown : Json)
    (htargets : ∀ id, .edge id ∈ targets → edges id) :
    KnowsLast r (Edit.after (Recorder.point on targets shown) r) ∧
      OneWay edges ended (Edit.after (Recorder.point on targets shown) r) := by
  refine h.alter shown fun n hn => ?_
  obtain ⟨target, htarget, rfl⟩ := List.mem_map.mp hn
  exact ⟨.inr rfl, fun id hid => htargets id (hid ▸ htarget)⟩

theorem outcome (h : OneWay edges false r) (outcome : Outcome) (name : String) (shown : Json) :
    KnowsLast r (r.push shown (some { name, body := Change.outcome outcome }) true) ∧
      OneWay edges true (r.push shown (some { name, body := Change.outcome outcome }) true) := by
  refine ⟨?_, { unambiguous := h.unambiguous, apart := h.apart, queued := h.queued, unended := by simp }⟩
  intro step c hstep hcommand
  cases hstep
  cases hcommand
  exact h.unended rfl

theorem create (h : OneWay edges ended r) {g : Graph} (hg : g.Unambiguous) (shown : Json) :
    KnowsLast r (Edit.after (Recorder.create g shown) r) ∧ OneWay edges false (Edit.after (Recorder.create g shown) r) := by
  refine ⟨?_, { unambiguous := hg, apart := h.apart, queued := ?_, unended := fun _ => rfl }⟩
  · intro step c hstep hcommand
    cases hstep
    cases hcommand
    trivial
  · intro q hq
    exact absurd hq List.not_mem_nil

theorem log (h : OneWay edges ended r) (shown : Json) :
    KnowsLast r (Edit.after (Recorder.log shown) r) ∧ OneWay edges ended (Edit.after (Recorder.log shown) r) := by
  refine ⟨?_, { unambiguous := h.unambiguous, apart := h.apart, queued := h.queued, unended := h.unended }⟩
  intro step c hstep hcommand
  cases hstep
  cases hcommand

end OneWay

/-- The steps of a search that points at no edge in both directions and ends at most once on each graph know what they
replace. -/
theorem knowing_of_oneWay {edges : EdgeId → Prop} {ended : Bool} (h : OneWay edges ended r) {calls : List Call}
    (hcalls : ∀ call ∈ calls, call.Unambiguous ∧ ∀ id, .edge id ∈ call.targets → edges id)
    (hends : EndsOnce ended calls) : Knowing r calls := by
  induction calls generalizing r ended with
  | nil => trivial
  | cons call rest ih =>
      have hrest : ∀ call ∈ rest, call.Unambiguous ∧ ∀ id, .edge id ∈ call.targets → edges id := fun c hc =>
        hcalls c (List.mem_cons_of_mem call hc)
      obtain ⟨hgraph, htargets⟩ := hcalls call List.mem_cons_self
      cases call with
      | visit slot shown =>
          obtain ⟨hknows, hrun⟩ := h.setState "visited" slot shown
          exact ⟨hknows, ih hrun hrest hends⟩
      | expand slot shown =>
          obtain ⟨hknows, hrun⟩ := h.setState "expanded" slot shown
          exact ⟨hknows, ih hrun hrest hends⟩
      | point on targets shown =>
          obtain ⟨hknows, hrun⟩ := h.point on shown htargets
          exact ⟨hknows, ih hrun hrest hends⟩
      | log shown =>
          obtain ⟨hknows, hrun⟩ := h.log shown
          exact ⟨hknows, ih hrun hrest hends⟩
      | success shown =>
          obtain ⟨rfl, hends⟩ := hends
          obtain ⟨hknows, hrun⟩ := h.outcome .success _ shown
          exact ⟨hknows, ih hrun hrest hends⟩
      | failure shown =>
          obtain ⟨rfl, hends⟩ := hends
          obtain ⟨hknows, hrun⟩ := h.outcome .failure _ shown
          exact ⟨hknows, ih hrun hrest hends⟩
      | create g shown =>
          obtain ⟨hknows, hrun⟩ := h.create hgraph shown
          exact ⟨hknows, ih hrun hrest hends⟩

end Recorder

end SearchLab
