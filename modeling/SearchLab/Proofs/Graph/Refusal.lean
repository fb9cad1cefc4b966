import SearchLab.Proofs.Graph.Settings

/-!
# Writes that are refused

A write of a property is checked against the rules of the property before anything is changed. What comes after the rules
may still refuse it: no node has the id that is to be the start or the goal, or a new size would drop one of them. All
that is found out before the first change; and the edits that do change the graph before their last check, those that
complete the edges of a grid, never fail on a grid that has all its cells.

* `ends_setProperty` — the ways in which a write ends;
* `refused_write_changes_nothing` — a write that is refused or passed over leaves all of the graph as it was.
-/

namespace SearchLab

namespace Property

/-- The property that a change addresses is one of those of the entity, and has the name. -/
theorem mem_of_checkUpdate {properties : List Property} {name : String} {value : Json} {p : Property}
    (h : checkUpdate properties name value = .ok (some p)) : p ∈ properties ∧ p.name = name := by
  have hfind : properties.find? (fun p => p.name = name) = some p := (of_checkUpdate h).1
  exact ⟨List.mem_of_find?_eq_some hfind, by simpa using List.find?_some hfind⟩

/-- What is fixed is never changed. -/
theorem not_fixed_of_checkUpdate {properties : List Property} {name : String} {value : Json} {p : Property}
    (h : checkUpdate properties name value = .ok (some p)) : p.fixed = false := by
  have hfind := (of_checkUpdate h).1
  unfold checkUpdate at h
  rw [hfind] at h
  cases hfixed : p.fixed with
  | false => rfl
  | true => simp [refusal?, hfixed] at h

end Property

namespace Graph

variable {g g' : Graph} {target : Target} {name : String} {value : Json} {p : Property}

/-! ## What the rules leave open -/

/-- A change of a graph is barred though the rules allow it: no node has the id of the new start or goal, or the new size
would drop one of them. -/
def Barred (g : Graph) (name : String) (value : Json) : Prop :=
  match name, value with
  | "start", .text id => g.slot? id = none
  | "end", .text id => g.slot? id = none
  | "width", .number n => ∃ spec, g.grid = some spec ∧ g.DropsEnd n.toFloat.toUInt64.toNat spec.height
  | "height", .number n => ∃ spec, g.grid = some spec ∧ g.DropsEnd spec.width n.toFloat.toUInt64.toNat
  | _, _ => False

/-- An id leads to a slot, or the look-up is refused. -/
theorem slotOf_cases (g : Graph) (id : String) :
    (g.slot? id = none ∧ g.slotOf id = .error (.nodeMissing id)) ∨
      ∃ slot, g.slot? id = some slot ∧ g.slotOf id = .ok slot := by
  cases hslot : g.slot? id <;> simp [slotOf, hslot]

/-- What is done with the node that an id leads to is refused just where the id leads to none. -/
theorem ends_atNode {id : String} {edit : Nat → Edit Graph Unit}
    (hedit : ∀ slot, g.slot? id = some slot → ∃ g', edit slot g = .ok () g') :
    let write : Edit Graph Bool := do
      let slot ← Edit.check fun g => g.slotOf id
      edit slot
      return true
    (g.slot? id = none ∧ ∃ e, write g = .error e g) ∨ (¬ g.slot? id = none ∧ ∃ g', write g = .ok true g') := by
  intro write
  rcases g.slotOf_cases id with ⟨hnone, hslotOf⟩ | ⟨slot, hslot, hslotOf⟩
  · have hcheck : Edit.check (fun g => g.slotOf id) g = .error _ g := Edit.check_error hslotOf
    exact .inl ⟨hnone, _, Edit.bind_error hcheck⟩
  · have hcheck : Edit.check (fun g => g.slotOf id) g = .ok slot g := Edit.check_ok hslotOf
    obtain ⟨g', hmade⟩ := hedit slot hslot
    exact .inr ⟨by simp [hslot], g', (Edit.bind_ok hcheck).trans (Edit.bind_ok hmade)⟩

/-- A new size is refused just where it would drop the start or the goal. -/
theorem ends_resize {spec : GridSpec} (ht : Tiled spec g) (width height : Nat) :
    let write : Edit Graph Bool := do
      resize width height
      return true
    (g.DropsEnd width height ∧ ∃ e, write g = .error e g) ∨ (¬ g.DropsEnd width height ∧ ∃ g', write g = .ok true g') := by
  intro write
  rcases ht.resize width height with ⟨hdrops, hrefused⟩ | ⟨hkept, g', hsized, -⟩
  · exact .inl ⟨hdrops, _, Edit.bind_error hrefused⟩
  · exact .inr ⟨hkept, g', Edit.bind_ok hsized⟩

/-- Which sizes of a grid are barred. -/
theorem barred_size_iff {spec : GridSpec} (hgrid : g.grid = some spec) (n : Number) :
    (g.Barred "width" (.number n) ↔ g.DropsEnd n.toFloat.toUInt64.toNat spec.height) ∧
      (g.Barred "height" (.number n) ↔ g.DropsEnd spec.width n.toFloat.toUInt64.toNat) := by
  simp [Barred, hgrid]

/-- A change of the graph that the rules allow is made, unless it is barred; then it is refused. -/
theorem ends_applyToGraph (hg : g.Reachable) (hcheck : Property.checkUpdate g.graphProperties name value = .ok (some p)) :
    (g.Barred name value ∧ ∃ e, applyToGraph name value g = .error e g) ∨
      (¬ g.Barred name value ∧ ∃ g', applyToGraph name value g = .ok true g') := by
  obtain ⟨harena, -⟩ := hg.arena_indexed
  obtain ⟨-, htype, -, -⟩ := Property.of_checkUpdate hcheck
  obtain ⟨hmem, rfl⟩ := Property.mem_of_checkUpdate hcheck
  simp only [graphProperties, List.mem_append, List.mem_cons, List.not_mem_nil, or_false] at hmem
  rcases hmem with (rfl | rfl | rfl | rfl) | hmem
  · -- The start.
    obtain ⟨id, rfl⟩ := PropertyType.text_of_accepts htype
    exact ends_atNode fun slot hslot => ⟨_, setStart_of_live (harena.live_of_slot? hslot)⟩
  · -- The end.
    obtain ⟨id, rfl⟩ := PropertyType.text_of_accepts htype
    exact ends_atNode fun slot hslot => ⟨_, setGoal_of_live (harena.live_of_slot? hslot)⟩
  · obtain ⟨on, rfl⟩ := PropertyType.flag_of_accepts htype
    exact .inr ⟨id, _, rfl⟩
  · obtain ⟨on, rfl⟩ := PropertyType.flag_of_accepts htype
    exact .inr ⟨id, _, rfl⟩
  · cases hgrid : g.grid with
    | none =>
        rw [hgrid] at hmem
        exact absurd hmem List.not_mem_nil
    | some spec =>
        have htiled := hg.tiled_of_grid hgrid
        have hspec : Edit.check gridSpec g = .ok spec g := Edit.check_ok (by simp [gridSpec, hgrid])
        simp only [hgrid, List.mem_cons, List.not_mem_nil, or_false] at hmem
        -- All three are numbers.
        obtain ⟨n, rfl⟩ : ∃ n, value = .number n := by
          rcases hmem with rfl | rfl | rfl <;> exact PropertyType.number_of_accepts htype
        have hneed : needNumber (.number n) g = .ok n.toFloat g := rfl
        rcases hmem with rfl | rfl | rfl
        · -- The width.
          have hwrite : applyToGraph "width" (.number n) g = _ := (Edit.bind_ok hspec).trans (Edit.bind_ok hneed)
          rw [hwrite, (barred_size_iff hgrid n).1]
          exact ends_resize htiled _ _
        · -- The height.
          have hwrite : applyToGraph "height" (.number n) g = _ := (Edit.bind_ok hspec).trans (Edit.bind_ok hneed)
          rw [hwrite, (barred_size_iff hgrid n).2]
          exact ends_resize htiled _ _
        · -- The cost of diagonals.
          obtain ⟨g', hset, -⟩ := htiled.setDiagonal (.ofValue n.toFloat)
          exact .inr ⟨id, _, (Edit.bind_ok hneed).trans (Edit.bind_ok hset)⟩

/-- A change of a node that the rules allow is made. -/
theorem applyToNode_of_checked {slot : Nat} {n : Node} (hnode : g.node? slot = some n)
    (hcheck : Property.checkUpdate (g.nodeProperties n) name value = .ok (some p)) :
    ∃ g', applyToNode slot name value g = .ok true g' := by
  have hlive : g.Live slot := live_iff.mpr ⟨n, hnode⟩
  have hfixed := Property.not_fixed_of_checkUpdate hcheck
  obtain ⟨hmem, rfl⟩ := Property.mem_of_checkUpdate hcheck
  -- A value that is written into the data finds the node there.
  have hkept : ∀ name, (do
      let g ← get
      set (g.modifyNode slot fun n => { n with data := n.data.set name value })
      let _ ← Edit.require (g.node? slot) (.slotEmpty slot)
      return true : Edit Graph Bool) g =
        .ok true (g.modifyNode slot fun n => { n with data := n.data.set name value }) := by
    intro name
    rw [Edit.get_bind, hnode]
    rfl
  simp only [nodeProperties, List.mem_append, List.mem_cons, List.not_mem_nil, or_false] at hmem
  rcases hmem with (rfl | rfl | rfl | rfl | rfl | rfl | rfl | rfl) | hmem
  · cases hfixed
  · exact ⟨_, hkept "label"⟩
  · exact ⟨_, Edit.bind_ok (setStart_of_live hlive)⟩
  · exact ⟨_, Edit.bind_ok (setGoal_of_live hlive)⟩
  · exact ⟨_, hkept "h"⟩
  · exact ⟨_, hkept "traversable"⟩
  · exact ⟨_, hkept "highlighted"⟩
  · exact ⟨_, hkept "state"⟩
  · split at hmem
    · simp only [List.mem_cons, List.not_mem_nil, or_false] at hmem
      rcases hmem with rfl | rfl <;> cases hfixed
    · exact absurd hmem List.not_mem_nil

/-- A change of an edge that the rules allow is made, in either direction. -/
theorem applyToEdge_of_checked {id : EdgeId} {e : Edge} (hedge : g.edge? id = some e)
    (hcheck : Property.checkUpdate (g.edgeProperties ⟨e, id.isReverse⟩) name value = .ok (some p)) :
    ∃ g', applyToEdge id name value g = .ok true g' := by
  have hfixed := Property.not_fixed_of_checkUpdate hcheck
  obtain ⟨-, htype, -, -⟩ := Property.of_checkUpdate hcheck
  obtain ⟨hmem, rfl⟩ := Property.mem_of_checkUpdate hcheck
  have hedge' : g.redraw.edge? id = some e := hedge
  unfold applyToEdge
  rw [Edit.bind_ok (Edit.modify_ok redraw g), Edit.get_bind, hedge']
  simp only [edgeProperties, List.mem_cons, List.not_mem_nil, or_false] at hmem
  rcases hmem with rfl | rfl | rfl | rfl | rfl | rfl | rfl | rfl
  · cases hfixed
  · cases hfixed
  · cases hfixed
  · obtain ⟨n, rfl⟩ := PropertyType.number_of_accepts htype
    exact ⟨_, rfl⟩
  · obtain ⟨on, rfl⟩ := PropertyType.flag_of_accepts htype
    exact ⟨_, rfl⟩
  · exact ⟨_, rfl⟩
  · exact ⟨_, rfl⟩
  · exact ⟨_, rfl⟩

/-! ## How a write ends -/

/-- The ways in which a write of a property ends. -/
inductive Ends (g : Graph) (target : Target) (name : String) (value : Json) : EStateM.Result Error Graph Bool → Prop
  /-- What is addressed is not there. -/
  | missing {e : Error} (h : g.propertiesOf target = .error e) : Ends g target name value (.error e g)
  /-- It has no property of the name. -/
  | passedOver {properties : List Property} (hproperties : g.propertiesOf target = .ok properties)
      (h : Property.checkUpdate properties name value = .ok none) : Ends g target name value (.ok false g)
  /-- The value breaks a rule of the property. -/
  | refused {properties : List Property} {e : Error} (hproperties : g.propertiesOf target = .ok properties)
      (h : Property.checkUpdate properties name value = .error e) : Ends g target name value (.error e g)
  | barred {p : Property} {e : Error} (htarget : target = .graph)
      (hcheck : Property.checkUpdate g.graphProperties name value = .ok (some p)) (h : g.Barred name value) :
      Ends g target name value (.error e g)
  | made {properties : List Property} {p : Property} (hproperties : g.propertiesOf target = .ok properties)
      (hcheck : Property.checkUpdate properties name value = .ok (some p))
      (h : target = .graph → ¬ g.Barred name value) (g' : Graph) : Ends g target name value (.ok true g')

theorem setProperty_of_checked {properties : List Property} (hproperties : g.propertiesOf target = .ok properties)
    (hcheck : Property.checkUpdate properties name value = .ok (some p)) :
    setProperty target name value g = (do
      let applied ← applyTo target name value
      if applied then modify redraw
      return applied : Edit Graph Bool) g := by
  have hlist : Edit.check (fun g : Graph => g.propertiesOf target) g = .ok properties g := Edit.check_ok hproperties
  have hfound : Edit.check (fun _ : Graph => Property.checkUpdate properties name value) g = .ok (some p) g :=
    Edit.check_ok hcheck
  rw [setProperty_eq]
  exact (Edit.bind_ok hlist).trans (Edit.bind_ok hfound)

/-- The node with an id is made the start. -/
theorem setProperty_start (hg : g.Arena) {id : String} {slot : Nat} (hslot : g.slot? id = some slot) :
    setProperty .graph "start" (.text id) g = .ok true { g with start := some slot, needsRedraw := true } := by
  have hcheck : Property.checkUpdate g.graphProperties "start" (.text id) =
      .ok (some { name := "start", type := .text, value := g.idValue g.start }) := rfl
  have hneed : needText (.text id) g = .ok id g := rfl
  have hslotOf : Edit.check (fun g : Graph => g.slotOf id) g = .ok slot g :=
    Edit.check_ok (by simp [slotOf, hslot])
  have happly : applyTo .graph "start" (.text id) g = .ok true { g with start := some slot, needsRedraw := true } :=
    (Edit.bind_ok hneed).trans ((Edit.bind_ok hslotOf).trans (Edit.bind_ok (setStart_of_live (hg.live_of_slot? hslot))))
  rw [setProperty_of_checked rfl hcheck]
  exact Edit.bind_ok happly

/-- A value that the rules allow is written, unless a size or an end bars it. -/
theorem ends_of_checked (hg : g.Reachable) {properties : List Property} (hproperties : g.propertiesOf target = .ok properties)
    (hcheck : Property.checkUpdate properties name value = .ok (some p)) :
    Ends g target name value (setProperty target name value g) := by
  rw [setProperty_of_checked hproperties hcheck]
  -- Whatever was changed, a redraw is asked for at the end.
  have hend : ∀ {g' : Graph}, (target = .graph → ¬ g.Barred name value) →
      applyTo target name value g = .ok true g' → Ends g target name value ((do
        let applied ← applyTo target name value
        if applied then modify redraw
        return applied : Edit Graph Bool) g) := by
    intro g' hopen happly
    rw [Edit.bind_ok happly]
    exact .made hproperties hcheck hopen g'.redraw
  cases target with
  | graph =>
      cases hproperties
      rcases ends_applyToGraph hg hcheck with ⟨hbarred, e, hrefused⟩ | ⟨hopen, g', hmade⟩
      · have hfails : applyTo .graph name value g = .error e g := hrefused
        rw [Edit.bind_error hfails]
        exact .barred rfl hcheck hbarred
      · exact hend (fun _ => hopen) hmade
  | node id =>
      obtain ⟨slot, n, hslot, hnode, rfl⟩ := node_of_properties hproperties
      have hslotOf : Edit.check (fun g : Graph => g.slotOf id) g = .ok slot g := Edit.check_ok hslot
      obtain ⟨g', hmade⟩ := applyToNode_of_checked hnode hcheck
      exact hend (by simp) ((Edit.bind_ok hslotOf).trans hmade)
  | edge id =>
      obtain ⟨e, hedge, rfl⟩ := edge_of_properties hproperties
      obtain ⟨g', hmade⟩ := applyToEdge_of_checked hedge hcheck
      exact hend (by simp) hmade

/-- **A write of a property ends in one of five ways.** -/
theorem ends_setProperty (hg : g.Reachable) (target : Target) (name : String) (value : Json) :
    Ends g target name value (setProperty target name value g) := by
  cases hproperties : g.propertiesOf target with
  | error e =>
      have hlist : Edit.check (fun g : Graph => g.propertiesOf target) g = .error e g := Edit.check_error hproperties
      have hwrite : setProperty target name value g = .error e g := Edit.bind_error hlist
      exact hwrite ▸ .missing hproperties
  | ok properties =>
      have hlist : Edit.check (fun g : Graph => g.propertiesOf target) g = .ok properties g := Edit.check_ok hproperties
      cases hcheck : Property.checkUpdate properties name value with
      | error e =>
          have hfound : Edit.check (fun _ : Graph => Property.checkUpdate properties name value) g = .error e g :=
            Edit.check_error hcheck
          have hwrite : setProperty target name value g = .error e g :=
            (Edit.bind_ok hlist).trans (Edit.bind_error hfound)
          exact hwrite ▸ .refused hproperties hcheck
      | ok found =>
          cases found with
          | none =>
              have hfound : Edit.check (fun _ : Graph => Property.checkUpdate properties name value) g = .ok none g :=
                Edit.check_ok hcheck
              have hwrite : setProperty target name value g = .ok false g :=
                (Edit.bind_ok hlist).trans (Edit.bind_ok hfound)
              exact hwrite ▸ .passedOver hproperties hcheck
          | some p => exact ends_of_checked hg hproperties hcheck

/-! ## What a refusal leaves -/

/-- There is what an address leads to: the graph itself, a node with the id, or a stored edge that has the id in one of
its directions. -/
def Has (g : Graph) : Target → Prop
  | .graph => True
  | .node id => ∃ n ∈ g.nodeList, n.id = id
  | .edge id => ∃ e ∈ g.edgeList, e.id = id ∨ e.id.reversed = id

/-- What there is has properties. -/
theorem propertiesOf_of_has (hg : g.Arena) (h : g.Has target) : ∃ properties, g.propertiesOf target = .ok properties := by
  cases target with
  | graph => exact ⟨_, rfl⟩
  | node id =>
      obtain ⟨n, hn, hid⟩ := h
      obtain ⟨slot, hnode⟩ := mem_nodeList.mp hn
      have hslot : g.slot? id = some slot := (hg.lookup id slot).mpr ⟨n, hnode, hid⟩
      exact ⟨g.nodeProperties n, by simp [propertiesOf, slotOf, hslot, hnode]⟩
  | edge id =>
      obtain ⟨e, he, hid⟩ := h
      obtain ⟨p, hp⟩ := mem_edgeList.mp he
      have hplace : place? id = some p := by
        rw [hg.number hp] at hid
        rcases hid with rfl | rfl <;> simp [place?_eq_some_iff, EdgeId.reversed]
      have hedge : g.edge? id = some e := by rw [edge?_eq, hplace, Option.bind_some, hp]
      exact ⟨g.edgeProperties ⟨e, id.isReverse⟩, by simp [propertiesOf, view?, hedge]⟩

/-- Nothing else has properties. -/
theorem has_of_propertiesOf (hg : g.Arena) {properties : List Property} (h : g.propertiesOf target = .ok properties) :
    g.Has target := by
  cases target with
  | graph => trivial
  | node id =>
      obtain ⟨slot, n, hslot, hnode, -⟩ := node_of_properties h
      rcases g.slotOf_cases id with ⟨-, hmissing⟩ | ⟨slot', hfound, hslot'⟩
      · cases hslot.symm.trans hmissing
      · obtain ⟨m, hm, hid⟩ := (hg.lookup id slot').mp hfound
        exact ⟨m, mem_nodeList.mpr ⟨slot', hm⟩, hid⟩
  | edge id =>
      obtain ⟨e, hedge, -⟩ := edge_of_properties h
      rw [edge?_eq] at hedge
      obtain ⟨p, hplace, hp⟩ := Option.bind_eq_some_iff.mp hedge
      refine ⟨e, mem_edgeList.mpr ⟨p, hp⟩, ?_⟩
      rw [hg.number hp]
      exact (place?_eq_some_iff.mp hplace).imp Eq.symm Eq.symm

/-- A name is passed over where it is not among those of the properties. -/
theorem checkUpdate_none_iff {properties : List Property} (h : g.propertiesOf target = .ok properties) :
    Property.checkUpdate properties name value = .ok none ↔ name ∉ g.propertyNames target := by
  rw [Property.checkUpdate_eq_none_iff, propertyNames, h]
  simp

/-- A write that is refused leaves the graph alone. -/
theorem eq_of_refused (hg : g.Reachable) {e : Error} (h : setProperty target name value g = .error e g') : g' = g := by
  have hends := ends_setProperty hg target name value
  rw [h] at hends
  cases hends <;> rfl

/-- A write that is passed over leaves the graph alone. -/
theorem eq_of_passedOver (hg : g.Reachable) (h : setProperty target name value g = .ok false g') : g' = g := by
  have hends := ends_setProperty hg target name value
  rw [h] at hends
  cases hends
  rfl

/-- What shows a property is not passed over. -/
theorem made_of_getProperty (hg : g.Reachable) {shown : Json} (hshown : g.getProperty target name = .ok shown)
    {made : Bool} (h : setProperty target name value g = .ok made g') : made = true := by
  have hends := ends_setProperty hg target name value
  rw [h] at hends
  cases hends with
  | made => rfl
  | passedOver hproperties hnone =>
      have hfind : Property.find? _ name = none :=
        List.find?_eq_none.mpr fun p hp => by simpa using (Property.checkUpdate_eq_none_iff _ _ _).mp hnone p hp
      simp [getProperty, hproperties, hfind] at hshown

/-- **A write that is not made changes nothing**: whether it is refused, for whatever reason, or passed over, all of the
graph is as before. It is passed over just where there is what it addresses, without a property of the name. -/
theorem refused_write_changes_nothing (hg : g.Reachable) (target : Target) (name : String) (value : Json) :
    (∀ e g', setProperty target name value g = .error e g' → g' = g) ∧
      (∀ g', setProperty target name value g = .ok false g' → g' = g) ∧
      ((∃ g', setProperty target name value g = .ok false g') ↔ g.Has target ∧ name ∉ g.propertyNames target) := by
  obtain ⟨harena, -⟩ := hg.arena_indexed
  refine ⟨fun e g' => eq_of_refused hg, fun g' => eq_of_passedOver hg, ?_⟩
  have hends := ends_setProperty hg target name value
  generalize setProperty target name value g = result at hends
  constructor
  · rintro ⟨g', rfl⟩
    cases hends with
    | passedOver hproperties hnone =>
        exact ⟨has_of_propertiesOf harena hproperties, (checkUpdate_none_iff hproperties).mp hnone⟩
  · rintro ⟨hhas, hname⟩
    obtain ⟨properties, hproperties⟩ := propertiesOf_of_has harena hhas
    have hnone : Property.checkUpdate properties name value = .ok none := (checkUpdate_none_iff hproperties).mpr hname
    cases hends with
    | missing herror => cases hproperties.symm.trans herror
    | passedOver => exact ⟨g, rfl⟩
    | refused hproperties' herror =>
        obtain rfl := Except.ok.inj (hproperties.symm.trans hproperties')
        cases hnone.symm.trans herror
    | barred htarget hcheck =>
        subst htarget
        cases hproperties
        cases hnone.symm.trans hcheck
    | made hproperties' hcheck =>
        obtain rfl := Except.ok.inj (hproperties.symm.trans hproperties')
        cases hnone.symm.trans hcheck

/-- There is a grid of two cells, the second of which is the start. -/
theorem exists_two_cells : ∃ (g : Graph) (n : Node), g.Reachable ∧ g.grid = some ⟨2, 1, .euclidean⟩ ∧ n ∈ g.nodeList ∧
    n.x = 1 ∧ g.start = some n.slot := by
  obtain ⟨origin, hmade, hlattice, -⟩ := lattice_ofGrid 2 1 (completable_unchecked .euclidean)
  have horigin : origin.Reachable := .fresh (.grid hmade)
  obtain ⟨slot, hslot⟩ := hlattice.tiled.filled (x := 1) (y := 0) (by decide) (by decide)
  obtain ⟨n, hn, hat⟩ := Option.map_eq_some_iff.mp (hlattice.tiled.slot?_cellId.mp hslot)
  obtain rfl := hlattice.tiled.arena.slot hn
  have hset : (Operation.setStart (some n.slot)).run origin = { origin with start := some n.slot, needsRedraw := true } :=
    Edit.after_ok (setStart_of_live (live_iff.mpr ⟨n, hn⟩))
  have hstarted := horigin.run (.setStart (some n.slot))
  rw [hset] at hstarted
  exact ⟨_, n, hstarted, hlattice.grid, mem_nodeList.mpr ⟨_, hn⟩, (Prod.mk.inj hat).1, rfl⟩

/-- A grid of two cells, the second of which is the start: a width of one cell is refused, and a colour is passed over. -/
theorem refused_write_changes_nothing_sample :
    ∃ g : Graph, g.Reachable ∧ (∃ e, setProperty .graph "width" (.int 1) g = .error e g) ∧
      setProperty .graph "colour" .null g = .ok false g := by
  obtain ⟨g, n, hg, hgrid, hn, hx, hstart⟩ := exists_two_cells
  refine ⟨g, hg, ?_, ?_⟩
  · obtain ⟨hrefused, -, -⟩ := refused_write_changes_nothing hg .graph "width" (.int 1)
    have hdrops : g.DropsEnd (Number.int 1).toFloat.toUInt64.toNat 1 := by
      have hwidth : (Number.int 1).toFloat.toUInt64.toNat = 1 := by decide +kernel
      rw [hwidth]
      exact ⟨n, hn, .inl hx.ge, .inl hstart.symm⟩
    have hends := ends_setProperty hg .graph "width" (.int 1)
    cases hwrite : setProperty .graph "width" (.int 1) g with
    | error e g' =>
        obtain rfl := hrefused e g' hwrite
        exact ⟨e, rfl⟩
    | ok made g' =>
        rw [hwrite] at hends
        cases hends with
        | passedOver hproperties hnone =>
            exact absurd ((checkUpdate_none_iff hproperties).mp hnone)
              (by simp [propertyNames, propertiesOf, graphProperties, hgrid])
        | made _ _ hopen => exact absurd ⟨_, hgrid, hdrops⟩ (hopen rfl)
  · obtain ⟨-, hpassed, hiff⟩ := refused_write_changes_nothing hg .graph "colour" .null
    obtain ⟨g', hwrite⟩ := hiff.mpr ⟨trivial, by simp [propertyNames, propertiesOf, graphProperties, hgrid]⟩
    rwa [hpassed g' hwrite] at hwrite

end Graph

end SearchLab
