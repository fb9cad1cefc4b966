import SearchLab.Proofs.Double.Rounding
import SearchLab.Proofs.Graph.Tiling
import SearchLab.Proofs.Replay.Look

/-!
# What is set is read back

A property of a graph is written in one place and read in another: into a bag under a key, into a field, as a new size
or as the end of a search, and out of these with defaults for what is missing. Whatever is accepted is read back, with
two exceptions. An edge that is set to cost nothing costs 1, since a zero counts as no cost; and a size beyond all words
is the largest word.

* `getProperty_setProperty_eq` — what is read of a property that was set: `Json.kept`, for the graph, for a node and
  for an edge seen in either direction;
* `getProperty_setProperty` — that is the value, but for the two exceptions.
-/

namespace SearchLab

/-- A number that is finite as a double, as all numbers of data are. -/
def Number.Finite (n : Number) : Prop := n.toFloat.isNaN = false ∧ n.toFloat.isInf = false

namespace Json

/-- All numbers of data are finite. -/
def Finite (value : Json) : Prop := ∀ n, value = .number n → n.Finite

/-- Values are the same; numbers are where they are equal as doubles. -/
def Alike : Json → Json → Prop
  | .number m, .number n => (m.toFloat == n.toFloat) = true
  | v, w => v = w

/-- What a property shows that was set to a value: the value, but 1 for an edge that costs a zero, and the largest word
for a size beyond all words. -/
def settled (name : String) (value : Json) : Json :=
  match value with
  | .number n =>
    if name = "weight" ∧ (n.toFloat == 0.0) = true then .int 1
    else if name ∈ ["width", "height"] ∧ n.toFloat.toUInt64.toNat + 1 = UInt64.size then .nat (UInt64.size - 1)
    else value
  | _ => value

/-- Under most names numbers are kept as they are. -/
theorem settled_of_name {name : String} (hweight : name ≠ "weight") (hsize : name ∉ ["width", "height"]) (value : Json) :
    settled name value = value := by
  cases value <;> simp [settled, hweight, hsize]

theorem settled_number (name : String) (n : Number) :
    settled name (.number n) =
      if name = "weight" ∧ (n.toFloat == 0.0) = true then .int 1
      else if name ∈ ["width", "height"] ∧ n.toFloat.toUInt64.toNat + 1 = UInt64.size then .nat (UInt64.size - 1)
      else .number n :=
  rfl

/-- What an edge costs that is set to cost a number: a zero counts as no cost, and what is not finite is not kept. -/
def costKept (x : Float) : Float := if (x == 0.0 || x.isNaN || x.isInf) = true then 1.0 else x

theorem costKept_of_finite {n : Number} (hn : n.Finite) :
    costKept n.toFloat = if (n.toFloat == 0.0) = true then 1.0 else n.toFloat := by
  have hout : (n.toFloat.isNaN || n.toFloat.isInf) = false := Bool.or_eq_false_iff.mpr hn
  rw [costKept, Bool.or_assoc, hout, Bool.or_false]

/-- What is read of a property that was set to a value: a number is read as the double that was kept. -/
def kept (name : String) (value : Json) : Json :=
  match value with
  | .number n =>
    if name = "weight" then .ofFloat (costKept n.toFloat)
    else if name ∈ ["width", "height"] then .nat n.toFloat.toUInt64.toNat
    else .ofFloat n.toFloat
  | _ => value

theorem alike_ofFloat {n : Number} (h : n.Finite) : (ofFloat n.toFloat).Alike (.number n) := by
  unfold ofFloat
  rw [h.1, h.2]
  exact Double.beq_self h.1

/-- A number above zero without a fraction is its word, unless it is beyond all words. -/
theorem alike_settled_size {name : String} {n : Number} (hname : name ∈ ["width", "height"])
    (htest : isPositiveWhole (.number n) = true) :
    (nat n.toFloat.toUInt64.toNat).Alike (settled name (.number n)) := by
  have hweight : name ≠ "weight" := by
    rintro rfl
    exact absurd hname (by decide)
  have hwhole : (n.toFloat.toUInt64.toFloat == n.toFloat) = true ∨ n.toFloat.toUInt64.toNat + 1 = UInt64.size := by
    have hwhole := (Bool.and_eq_true_iff.mp htest).2
    simpa [Double.isWhole] using hwhole
  rw [settled_number, if_neg fun h => hweight h.1]
  by_cases hmost : n.toFloat.toUInt64.toNat + 1 = UInt64.size
  · rw [if_pos ⟨hname, hmost⟩, show n.toFloat.toUInt64.toNat = UInt64.size - 1 from Nat.eq_sub_of_add_eq hmost]
    exact Double.beq_self (by decide +kernel)
  · rw [if_neg fun h => hmost h.2]
    have hequal := hwhole.resolve_right hmost
    rwa [Double.toFloat_eq_ofNat] at hequal

theorem alike_settled_weight {n : Number} (hn : n.Finite) :
    (ofFloat (costKept n.toFloat)).Alike (settled "weight" (.number n)) := by
  rw [settled_number, costKept_of_finite hn]
  by_cases hzero : (n.toFloat == 0.0) = true
  · have hone : (ofFloat 1.0).Alike (.int 1) :=
      alike_ofFloat (n := .int 1) ⟨by decide +kernel, by decide +kernel⟩
    rw [if_pos hzero, if_pos ⟨rfl, hzero⟩]
    exact hone
  · rw [if_neg hzero, if_neg fun h => hzero h.2, if_neg fun h => absurd h.1 (by decide)]
    exact alike_ofFloat hn

/-- What is kept is the value, but for a zero weight and for a size beyond all words. -/
theorem alike_kept {name : String} {value : Json} (hvalue : value.Finite)
    (hsize : name ∈ ["width", "height"] → value.isPositiveWhole = true) : (kept name value).Alike (settled name value) := by
  cases value with
  | number n =>
      have hn : n.Finite := hvalue n rfl
      unfold kept
      dsimp only
      split
      · rename_i hweight
        rw [hweight]
        exact alike_settled_weight hn
      · rename_i hweight
        split
        · rename_i hname
          exact alike_settled_size hname (hsize hname)
        · rename_i hname
          rw [settled_of_name hweight hname]
          exact alike_ofFloat hn
  | _ => rfl

end Json

namespace Property

/-- A change that passes the rules addresses a property, and its value has the type of the property, means yes where the
property is a trigger, and passes its test. -/
theorem of_checkUpdate {properties : List Property} {name : String} {value : Json} {p : Property}
    (h : checkUpdate properties name value = .ok (some p)) :
    find? properties name = some p ∧ p.type.accepts value = true ∧ (p.trigger = true → value.isTruthy = true) ∧
      ∀ test, p.test = some test → test value = true := by
  unfold checkUpdate at h
  split at h
  · cases h
  · rename_i q hfind
    split at h
    · cases h
    · rename_i hrefusal
      cases h
      unfold refusal? at hrefusal
      split at hrefusal
      · cases hrefusal
      split at hrefusal
      · cases hrefusal
      split at hrefusal
      · cases hrefusal
      split at hrefusal
      · cases hrefusal
      split at hrefusal
      · cases hrefusal
      rename_i _ _ htrigger htype htest
      refine ⟨hfind, by simpa using htype, fun hp => by simpa [hp] using htrigger, fun test hp => ?_⟩
      simpa [hp] using htest

end Property

theorem PropertyType.flag_of_accepts {value : Json} (h : PropertyType.flag.accepts value = true) :
    ∃ b, value = .bool b := by
  cases value <;> simp [PropertyType.accepts] at h ⊢

theorem PropertyType.text_of_accepts {value : Json} (h : PropertyType.text.accepts value = true) :
    ∃ s, value = .text s := by
  cases value <;> simp [PropertyType.accepts] at h ⊢

theorem PropertyType.number_of_accepts {value : Json} (h : PropertyType.number.accepts value = true) :
    ∃ n, value = .number n := by
  cases value <;> simp [PropertyType.accepts] at h ⊢

namespace Graph

variable {g g' : Graph} {name : String} {value : Json}

/-! ## Reading -/

theorem getProperty_redraw (g : Graph) (target : Target) (name : String) :
    g.redraw.getProperty target name = g.getProperty target name :=
  rfl

/-- Only a node that is there has properties. -/
theorem node_of_properties {id : String} {properties : List Property} (h : g.propertiesOf (.node id) = .ok properties) :
    ∃ slot n, g.slotOf id = .ok slot ∧ g.node? slot = some n ∧ properties = g.nodeProperties n := by
  unfold propertiesOf at h
  dsimp only at h
  split at h
  · cases h
  · rename_i slot hslot
    split at h
    · rename_i n hnode
      cases h
      exact ⟨slot, n, hslot, hnode, rfl⟩
    · cases h

/-- Only an edge that is there has properties. -/
theorem edge_of_properties {id : EdgeId} {properties : List Property} (h : g.propertiesOf (.edge id) = .ok properties) :
    ∃ e, g.edge? id = some e ∧ properties = g.edgeProperties ⟨e, id.isReverse⟩ := by
  unfold propertiesOf at h
  dsimp only at h
  split at h
  · rename_i v hview
    obtain ⟨e, hedge, rfl⟩ := Option.map_eq_some_iff.mp hview
    cases h
    exact ⟨e, hedge, rfl⟩
  · cases h

theorem getProperty_graph {p : Property} (hfind : Property.find? g.graphProperties name = some p) :
    g.getProperty .graph name = .ok p.value := by
  simp [getProperty, propertiesOf, hfind]

theorem getProperty_node {id : String} {slot : Nat} {n : Node} {p : Property} (hslot : g.slotOf id = .ok slot)
    (hnode : g.node? slot = some n) (hfind : Property.find? (g.nodeProperties n) name = some p) :
    g.getProperty (.node id) name = .ok p.value := by
  simp [getProperty, propertiesOf, hslot, hnode, hfind]

theorem getProperty_edge {id : EdgeId} {e : Edge} {p : Property} (hedge : g.edge? id = some e)
    (hfind : Property.find? (g.edgeProperties ⟨e, id.isReverse⟩) name = some p) :
    g.getProperty (.edge id) name = .ok p.value := by
  simp [getProperty, propertiesOf, view?, hedge, hfind]

/-! ## Writing -/

section Bind

variable {α : Type} {a : α}

theorem of_needText_bind {next : String → Edit Graph α} (h : (needText value >>= next) g = .ok a g') :
    ∃ s, value = .text s ∧ next s g = .ok a g' := by
  obtain ⟨s, hs, hnext⟩ := Edit.of_require_bind h
  cases value <;> cases hs
  exact ⟨s, rfl, hnext⟩

theorem of_needFlag_bind {next : Bool → Edit Graph α} (h : (needFlag value >>= next) g = .ok a g') :
    ∃ b, value = .bool b ∧ next b g = .ok a g' := by
  obtain ⟨b, hb, hnext⟩ := Edit.of_require_bind h
  cases value <;> cases hb
  exact ⟨b, rfl, hnext⟩

theorem of_needNumber_bind {next : Float → Edit Graph α} (h : (needNumber value >>= next) g = .ok a g') :
    ∃ n, value = .number n ∧ next n.toFloat g = .ok a g' := by
  obtain ⟨x, hx, hnext⟩ := Edit.of_require_bind h
  obtain ⟨n, hn, rfl⟩ := Option.map_eq_some_iff.mp hx
  cases value <;> cases hn
  exact ⟨n, rfl, hnext⟩

theorem of_setStart_bind {slot : Option Nat} {next : Unit → Edit Graph α} (h : (setStart slot >>= next) g = .ok a g') :
    next () { g with start := slot, needsRedraw := true } = .ok a g' := by
  obtain ⟨u, g₁, hset, hnext⟩ := Edit.of_bind_ok h
  unfold setStart at hset
  split at hset <;> cases hset
  exact hnext

theorem of_setGoal_bind {slot : Option Nat} {next : Unit → Edit Graph α} (h : (setGoal slot >>= next) g = .ok a g') :
    next () { g with goal := slot, needsRedraw := true } = .ok a g' := by
  obtain ⟨u, g₁, hset, hnext⟩ := Edit.of_bind_ok h
  unfold setGoal at hset
  split at hset <;> cases hset
  exact hnext

end Bind

/-! ### Sizes and diagonals -/

/-- Where a new size is set, the grid has this size. -/
theorem grid_of_resize {width height : Nat} {spec : GridSpec} {u : Unit} (hspec : g.gridSpec = .ok spec)
    (h : resize width height g = .ok u g') : g'.grid = some { spec with width, height } := by
  unfold resize at h
  simp only [hspec] at h
  split at h
  · cases h
  split at h
  · cases h
  · exact (Edit.after_ok h) ▸ ((completing_cells _).allEdges _ (.refl _)).grid

/-- Where a new cost of diagonals is set, the grid has this cost. -/
theorem grid_of_setDiagonal {diagonal : Diagonal} {u : Unit} (h : setDiagonal diagonal g = .ok u g') :
    ∃ spec : GridSpec, g'.grid = some { spec with diagonal } := by
  unfold setDiagonal at h
  split at h
  · cases h
  · rename_i spec _
    exact ⟨spec, (Edit.after_ok h) ▸ ((completing_cells _).allEdges _ (.refl _)).grid⟩

/-! ## The graph itself -/

/-- The sizes of a grid. -/
theorem find?_sizes {spec : GridSpec} (h : g.grid = some spec) :
    Property.find? g.graphProperties "width" =
      some { name := "width", type := .number, value := .nat spec.width, test := some Json.isPositiveWhole } ∧
    Property.find? g.graphProperties "height" =
      some { name := "height", type := .number, value := .nat spec.height, test := some Json.isPositiveWhole } := by
  constructor <;> simp [graphProperties, Property.find?, h]

/-- A width is accepted that the grid can be brought to. -/
theorem setProperty_width {g g' : Graph} {spec : GridSpec} {n : Number} (hgrid : g.grid = some spec)
    (htest : Json.isPositiveWhole (.number n) = true)
    (h : resize n.toFloat.toUInt64.toNat spec.height g = .ok () g') :
    setProperty .graph "width" (.number n) g = .ok true g'.redraw := by
  have hspec : g.gridSpec = .ok spec := by simp [gridSpec, hgrid]
  have hcheck : ∃ p, Property.checkUpdate g.graphProperties "width" (.number n) = .ok (some p) := by
    simp [Property.checkUpdate, (find?_sizes hgrid).1, Property.refusal?, PropertyType.accepts, htest]
  obtain ⟨p, hp⟩ := hcheck
  have hneed : needNumber (.number n) g = .ok n.toFloat g := rfl
  have happly : applyToGraph "width" (.number n) g = .ok true g' :=
    (Edit.bind_ok (Edit.check_ok hspec)).trans ((Edit.bind_ok hneed).trans (Edit.bind_ok h))
  have hproperties : Edit.check (fun g : Graph => g.propertiesOf .graph) g = .ok g.graphProperties g := Edit.check_ok rfl
  have hfound : Edit.check (fun _ : Graph => Property.checkUpdate g.graphProperties "width" (.number n)) g =
      .ok (some p) g := Edit.check_ok hp
  exact (Edit.bind_ok hproperties).trans ((Edit.bind_ok hfound).trans (Edit.bind_ok happly))

/-- A size is tested, and nothing but a grid has one. -/
theorem test_of_find?_size {target : Target} {properties : List Property} {p : Property}
    (hproperties : g.propertiesOf target = .ok properties) (hname : name = "width" ∨ name = "height")
    (h : Property.find? properties name = some p) : p.test = some Json.isPositiveWhole := by
  cases target with
  | graph =>
      cases hproperties
      cases hgrid : g.grid with
      | none => rcases hname with rfl | rfl <;> simp [graphProperties, Property.find?, hgrid] at h
      | some spec =>
          rcases hname with rfl | rfl
          · cases (find?_sizes hgrid).1.symm.trans h
            rfl
          · cases (find?_sizes hgrid).2.symm.trans h
            rfl
  | node id =>
      obtain ⟨_, n, -, -, rfl⟩ := node_of_properties hproperties
      cases hgrid : g.isGrid <;> rcases hname with rfl | rfl <;> simp [nodeProperties, Property.find?, hgrid] at h
  | edge id =>
      obtain ⟨_, -, rfl⟩ := edge_of_properties hproperties
      rcases hname with rfl | rfl <;> simp [edgeProperties, Property.find?] at h

theorem find?_diagonal {spec : GridSpec} (h : g.grid = some spec) :
    Property.find? g.graphProperties "diagonal_weights" =
      some { name := "diagonal_weights", type := .number, value := .ofFloat spec.diagonal.value } := by
  simp [graphProperties, Property.find?, h]

/-- A node is named by its id. -/
theorem idValue_of_slotOf (hg : g.Arena) {id : String} {slot : Nat} (h : g.slotOf id = .ok slot) :
    g.idValue (some slot) = .text id := by
  have hslot : g.slot? id = some slot := by
    unfold slotOf at h
    split at h
    · rename_i found hfound
      cases h
      exact hfound
    · cases h
  obtain ⟨n, hn, rfl⟩ := (hg.lookup id slot).mp hslot
  simp [idValue, idOf?, hn]

/-- What is set of a graph is read back. -/
theorem getProperty_applyToGraph (hg : g.Arena) (h : applyToGraph name value g = .ok true g') :
    g'.getProperty .graph name = .ok (Json.kept name value) := by
  unfold applyToGraph at h
  split at h
  case h_1 =>
    -- The start.
    obtain ⟨id, rfl, hid⟩ := of_needText_bind h
    obtain ⟨slot, hslot, hset⟩ := Edit.of_check_bind hid
    cases of_setStart_bind hset
    exact (getProperty_graph rfl).trans (congrArg Except.ok (idValue_of_slotOf hg hslot))
  case h_2 =>
    -- The end.
    obtain ⟨id, rfl, hid⟩ := of_needText_bind h
    obtain ⟨slot, hslot, hset⟩ := Edit.of_check_bind hid
    cases of_setGoal_bind hset
    exact (getProperty_graph rfl).trans (congrArg Except.ok (idValue_of_slotOf hg hslot))
  case h_3 | h_4 =>
    obtain ⟨on, rfl, hset⟩ := of_needFlag_bind h
    cases hset
    exact (getProperty_graph rfl).trans rfl
  case h_5 =>
    -- The width.
    obtain ⟨spec, hspec, hneed⟩ := Edit.of_check_bind h
    obtain ⟨n, rfl, hset⟩ := of_needNumber_bind hneed
    obtain ⟨u, g₁, hresize, hlast⟩ := Edit.of_bind_ok hset
    cases hlast
    exact getProperty_graph (find?_sizes (grid_of_resize hspec hresize)).1
  case h_6 =>
    -- The height.
    obtain ⟨spec, hspec, hneed⟩ := Edit.of_check_bind h
    obtain ⟨n, rfl, hset⟩ := of_needNumber_bind hneed
    obtain ⟨u, g₁, hresize, hlast⟩ := Edit.of_bind_ok hset
    cases hlast
    exact getProperty_graph (find?_sizes (grid_of_resize hspec hresize)).2
  case h_7 =>
    -- The cost of diagonals.
    obtain ⟨n, rfl, hset⟩ := of_needNumber_bind h
    obtain ⟨u, g₁, hdiagonal, hlast⟩ := Edit.of_bind_ok hset
    cases hlast
    obtain ⟨spec, hgrid⟩ := grid_of_setDiagonal hdiagonal
    have hshown := find?_diagonal hgrid
    rw [Diagonal.value_ofValue] at hshown
    exact getProperty_graph hshown
  case h_8 => cases h

/-! ## Nodes -/

/-- The properties of a node that are set in its data, with their types and what they show. -/
theorem find?_keptInNode (g : Graph) (n : Node) :
    Property.find? (g.nodeProperties n) "label" = some { name := "label", type := .text, value := .text n.label } ∧
    Property.find? (g.nodeProperties n) "h" =
      some { name := "h", type := .number, value := .ofFloat (g.heuristic n.slot) } ∧
    Property.find? (g.nodeProperties n) "traversable" =
      some { name := "traversable", type := .flag, value := .bool n.isTraversable } := by
  refine ⟨?_, ?_, ?_⟩ <;> simp [nodeProperties, Property.find?]

theorem find?_triggers (g : Graph) (n : Node) :
    Property.find? (g.nodeProperties n) "is_start" =
      some { name := "is_start", type := .flag, value := .bool (g.start == some n.slot), trigger := true } ∧
    Property.find? (g.nodeProperties n) "is_goal" =
      some { name := "is_goal", type := .flag, value := .bool (g.goal == some n.slot), trigger := true } := by
  constructor <;> simp [nodeProperties, Property.find?]

/-- A trigger is only ever set to yes. -/
theorem of_trigger {properties : List Property} {p : Property} {shown : Json} {shownName : String}
    (hfind : Property.find? properties name = some { name := shownName, type := .flag, value := shown, trigger := true })
    (hcheck : Property.checkUpdate properties name value = .ok (some p)) : value = .bool true := by
  obtain ⟨hfind', htype, htrigger, -⟩ := Property.of_checkUpdate hcheck
  cases hfind.symm.trans hfind'
  obtain ⟨b, rfl⟩ := PropertyType.flag_of_accepts htype
  have hyes : b = true := htrigger rfl
  rw [hyes]

/-- A number in the data of a node is its estimate. -/
theorem heuristic_of_data {slot : Nat} {n : Node} {w : Number} (hnode : g.node? slot = some n)
    (hdata : n.data.get? "h" = some (.number w)) : (g.heuristic slot : Float) = w.toFloat := by
  have hnumber : n.data.number? "h" = some w := by simp [Bag.number?, hdata, Json.number?]
  cases w <;> simp [heuristic, hnode, hnumber, Cost.ofNumber, Cost.ofInt, Cost.ofFloat, Number.toFloat]

/-- Under its own name a value is written into the data of a node. -/
theorem of_setData {id : String} {slot : Nat} {n : Node} {made : Bool} (hslot : g.slotOf id = .ok slot)
    (hnode : g.node? slot = some n)
    (h : (do
      let g ← get
      set (g.modifyNode slot fun n => { n with data := n.data.set name value })
      let _ ← Edit.require (g.node? slot) (.slotEmpty slot)
      return true : Edit Graph Bool) g = .ok made g') :
    g'.slotOf id = .ok slot ∧ g'.node? slot = some { n with data := n.data.set name value } := by
  rw [Edit.get_bind] at h
  obtain ⟨_, g₁, hset, hlast⟩ := Edit.of_bind_ok h
  cases hset
  obtain ⟨_, _, hend⟩ := Edit.of_require_bind hlast
  cases hend
  exact ⟨hslot, by simp [node?_modifyNode, hnode]⟩

/-- What is set of a node is read back. -/
theorem getProperty_applyToNode (hg : g.Arena) {id : String} {slot : Nat} {n : Node} {p : Property}
    (hslot : g.slotOf id = .ok slot) (hnode : g.node? slot = some n)
    (hcheck : Property.checkUpdate (g.nodeProperties n) name value = .ok (some p))
    (h : applyToNode slot name value g = .ok true g') :
    g'.getProperty (.node id) name = .ok (Json.kept name value) := by
  obtain ⟨hfind, htype, -, -⟩ := Property.of_checkUpdate hcheck
  unfold applyToNode at h
  split at h
  case h_1 =>
    obtain rfl := of_trigger (g.find?_triggers n).1 hcheck
    cases of_setStart_bind h
    rw [getProperty_node (g := { g with start := some slot, needsRedraw := true }) hslot hnode (find?_triggers _ n).1,
      hg.slot hnode]
    exact congrArg (Except.ok ∘ Json.bool) (beq_self_eq_true _)
  case h_2 =>
    obtain rfl := of_trigger (g.find?_triggers n).2 hcheck
    cases of_setGoal_bind h
    rw [getProperty_node (g := { g with goal := some slot, needsRedraw := true }) hslot hnode (find?_triggers _ n).2,
      hg.slot hnode]
    exact congrArg (Except.ok ∘ Json.bool) (beq_self_eq_true _)
  case h_3 =>
    cases (g.find?_keptInNode n).1.symm.trans hfind
    obtain ⟨s, rfl⟩ := PropertyType.text_of_accepts htype
    obtain ⟨hslot', hnode'⟩ := of_setData hslot hnode h
    rw [getProperty_node hslot' hnode' (find?_keptInNode _ _).1]
    simp [Json.kept, Node.label, Bag.text?, Bag.get?_set, Json.text?]
  case h_4 =>
    cases (g.find?_keptInNode n).2.1.symm.trans hfind
    obtain ⟨w, rfl⟩ := PropertyType.number_of_accepts htype
    obtain ⟨hslot', hnode'⟩ := of_setData hslot hnode h
    have hdata : (n.data.set "h" (.number w)).get? "h" = some (.number w) := by simp [Bag.get?_set]
    rw [getProperty_node hslot' hnode' (find?_keptInNode _ _).2.1, hg.slot hnode, heuristic_of_data hnode' hdata]
    rfl
  case h_5 =>
    cases (g.find?_keptInNode n).2.2.symm.trans hfind
    obtain ⟨b, rfl⟩ := PropertyType.flag_of_accepts htype
    obtain ⟨hslot', hnode'⟩ := of_setData hslot hnode h
    rw [getProperty_node hslot' hnode' (find?_keptInNode _ _).2.2]
    cases b <;> simp [Json.kept, Node.isTraversable, Bag.bool?, Bag.get?_set, Json.bool?]
  case h_6 =>
    cases (g.find?_nodeProperties n).2.symm.trans hfind
    obtain ⟨b, rfl⟩ := PropertyType.flag_of_accepts htype
    obtain ⟨hslot', hnode'⟩ := of_setData hslot hnode h
    rw [getProperty_node hslot' hnode' (find?_nodeProperties _ _).2]
    simp [Json.kept, Node.isHighlighted, Bag.bool?, Bag.get?_set, Json.bool?]
  case h_7 =>
    cases (g.find?_nodeProperties n).1.symm.trans hfind
    obtain ⟨s, rfl⟩ := PropertyType.text_of_accepts htype
    obtain ⟨hslot', hnode'⟩ := of_setData hslot hnode h
    rw [getProperty_node hslot' hnode' (find?_nodeProperties _ _).1]
    simp [Json.kept, Node.state, Bag.text?, Bag.get?_set, Json.text?]
  case h_8 => cases h

/-! ## Edges -/

/-- The properties of an edge that can be set. -/
theorem find?_keptInEdge (g : Graph) (v : EdgeView) :
    Property.find? (g.edgeProperties v) "weight" =
      some { name := "weight", type := .number, value := .ofFloat v.edge.weight.toFloat } ∧
    Property.find? (g.edgeProperties v) "bidirectional" =
      some { name := "bidirectional", type := .flag, value := .bool v.edge.bidirectional } ∧
    Property.find? (g.edgeProperties v) "flipped" =
      some { name := "flipped", type := .flag, value := .bool v.edge.isFlipped } ∧
    Property.find? (g.edgeProperties v) "forbidden" =
      some { name := "forbidden", type := .flag, value := .bool v.edge.isForbidden } := by
  refine ⟨?_, ?_, ?_, ?_⟩ <;> simp [edgeProperties, Property.find?]

theorem edge?_modifyEdge {id : EdgeId} {e : Edge} (h : g.edge? id = some e) (f : Edge → Edge) :
    (g.modifyEdge id f).edge? id = some (f e) := by
  rw [edge?_eq] at h ⊢
  obtain ⟨place, hplace, hedge⟩ := Option.bind_eq_some_iff.mp h
  have hchanged : (g.modifyEdge id f).edgeAt? place = _ := edgeAt?_changeEdge g id f place
  rw [hplace, Option.bind_some, hchanged, if_pos hplace, hedge]
  rfl

/-- The cost of an edge that is set to cost a number. -/
theorem toFloat_weightOf_ofFloat (x : Float) (data : Bag) :
    (weightOf (data.set "w" (.ofFloat x))).toFloat = Json.costKept x := by
  unfold weightOf Json.costKept Json.ofFloat
  by_cases hout : (x.isNaN || x.isInf) = true
  · have hnone : (data.set "w" .null).number? "w" = none := by simp [Bag.number?, Bag.get?_set, Json.number?]
    rw [if_pos hout, hnone, if_pos (by rw [Bool.or_assoc, hout, Bool.or_true])]
    decide +kernel
  · have hnumber : (data.set "w" (.number (.float x))).number? "w" = some (.float x) := by
      simp [Bag.number?, Bag.get?_set, Json.number?]
    have hfloat : (Number.float x).toFloat = x := rfl
    rw [if_neg hout, hnumber]
    dsimp only
    rw [hfloat, Bool.or_assoc, Bool.eq_false_iff.mpr hout, Bool.or_false]
    split <;> rfl

/-- A cost that is set counts, unless it is a zero. -/
theorem toFloat_weightOf_set {n : Number} (hn : n.Finite) (data : Bag) :
    (weightOf (data.set "w" (.ofFloat n.toFloat))).toFloat = if (n.toFloat == 0.0) = true then 1.0 else n.toFloat := by
  rw [toFloat_weightOf_ofFloat, Json.costKept_of_finite hn]

/-- What is set of an edge is read back, in either direction. -/
theorem getProperty_applyToEdge {id : EdgeId} {e : Edge} {p : Property} (hedge : g.edge? id = some e)
    (hcheck : Property.checkUpdate (g.edgeProperties ⟨e, id.isReverse⟩) name value = .ok (some p))
    (h : applyToEdge id name value g = .ok true g') :
    g'.getProperty (.edge id) name = .ok (Json.kept name value) := by
  obtain ⟨hfind, htype, -, -⟩ := Property.of_checkUpdate hcheck
  have hread : ∀ {f : Edge → Edge} {u : Bool},
      (do set (g.redraw.modifyEdge id f); return true : Edit Graph Bool) g.redraw = .ok u g' →
      g'.edge? id = some (f e) := by
    intro f u hrun
    cases hrun
    exact edge?_modifyEdge (g := g.redraw) hedge f
  unfold applyToEdge at h
  rw [Edit.bind_ok (Edit.modify_ok redraw g), Edit.get_bind] at h
  obtain ⟨_, _, h⟩ := Edit.of_require_bind h
  split at h
  case h_1 =>
    obtain ⟨n, rfl, hset⟩ := of_needNumber_bind h
    rw [getProperty_edge (hread hset) (find?_keptInEdge _ _).1]
    exact congrArg (Except.ok ∘ Json.ofFloat) (toFloat_weightOf_ofFloat n.toFloat e.data)
  case h_2 =>
    obtain ⟨on, rfl, hset⟩ := of_needFlag_bind h
    exact getProperty_edge (hread hset) (find?_keptInEdge _ _).2.1
  case h_3 =>
    cases (g.find?_keptInEdge _).2.2.1.symm.trans hfind
    obtain ⟨b, rfl⟩ := PropertyType.flag_of_accepts htype
    rw [getProperty_edge (hread h) (find?_keptInEdge _ _).2.2.1]
    simp [Json.kept, Edge.isFlipped, Bag.isTruthy, Bag.get?_set, Json.isTruthy]
  case h_4 =>
    cases (g.find?_edgeProperties _).2.symm.trans hfind
    obtain ⟨b, rfl⟩ := PropertyType.flag_of_accepts htype
    rw [getProperty_edge (hread h) (find?_edgeProperties _ _).2]
    simp [Json.kept, Bag.isTruthy, Bag.get?_set, Json.isTruthy]
  case h_5 =>
    cases (g.find?_keptInEdge _).2.2.2.symm.trans hfind
    obtain ⟨b, rfl⟩ := PropertyType.flag_of_accepts htype
    rw [getProperty_edge (hread h) (find?_keptInEdge _ _).2.2.2]
    simp [Json.kept, Edge.isForbidden, Bag.isTruthy, Bag.get?_set, Json.isTruthy]
  case h_6 => cases h

/-! ## Whatever is addressed -/

/-- What is changed when the rules of a property allow it. -/
def applyTo (target : Target) (name : String) (value : Json) : Edit Graph Bool :=
  match target with
  | .graph => applyToGraph name value
  | .node id => do
    let slot ← Edit.check (·.slotOf id)
    applyToNode slot name value
  | .edge id => applyToEdge id name value

/-- A write checks the rules of the property first. -/
theorem setProperty_eq (target : Target) (name : String) (value : Json) :
    setProperty target name value = (do
      let properties ← Edit.check (·.propertiesOf target)
      let found ← Edit.check fun _ => Property.checkUpdate properties name value
      if found.isNone then return false
      let applied ← applyTo target name value
      if applied then modify redraw
      return applied) := by
  cases target with
  | node id => simp only [setProperty, applyTo, bind_assoc]
  | _ => rfl

/-- A change that was made had passed the rules of the property; a redraw is asked for at the end. -/
theorem of_setProperty {target : Target} (h : setProperty target name value g = .ok true g') :
    ∃ properties p g₁, g.propertiesOf target = .ok properties ∧
      Property.checkUpdate properties name value = .ok (some p) ∧
      applyTo target name value g = .ok true g₁ ∧ g' = g₁.redraw := by
  rw [setProperty_eq] at h
  obtain ⟨properties, hproperties, h₁⟩ := Edit.of_check_bind h
  obtain ⟨found, hcheck, h₂⟩ := Edit.of_check_bind h₁
  cases found with
  | none => cases h₂
  | some p =>
      obtain ⟨applied, g₁, happly, hlast⟩ := Edit.of_bind_ok h₂
      cases applied <;> cases hlast
      exact ⟨properties, p, g₁, hproperties, hcheck, happly, rfl⟩

/-- **What is read of a property that was set**, of the graph, of a node, or of an edge in either direction. -/
theorem getProperty_setProperty_eq (hg : g.Arena) {target : Target}
    (h : setProperty target name value g = .ok true g') : g'.getProperty target name = .ok (Json.kept name value) := by
  obtain ⟨properties, p, g₁, hproperties, hcheck, happly, rfl⟩ := of_setProperty h
  rw [getProperty_redraw]
  cases target with
  | graph => exact getProperty_applyToGraph hg happly
  | node id =>
      obtain ⟨slot, n, hslot, hnode, rfl⟩ := node_of_properties hproperties
      obtain ⟨slot', hslot', hmade⟩ := Edit.of_check_bind happly
      obtain rfl := Except.ok.inj (hslot.symm.trans hslot')
      exact getProperty_applyToNode hg hslot hnode hcheck hmade
  | edge id =>
      obtain ⟨e, hedge, rfl⟩ := edge_of_properties hproperties
      exact getProperty_applyToEdge hedge hcheck happly

/-- **What is set is read back**, of the graph, of a node, or of an edge in either direction. -/
theorem getProperty_setProperty (hg : g.Arena) {target : Target} (hvalue : value.Finite)
    (h : setProperty target name value g = .ok true g') :
    ∃ v, g'.getProperty target name = .ok v ∧ v.Alike (Json.settled name value) := by
  obtain ⟨properties, p, -, hproperties, hcheck, -⟩ := of_setProperty h
  obtain ⟨hfind, -, -, htest⟩ := Property.of_checkUpdate hcheck
  refine ⟨_, getProperty_setProperty_eq hg h, Json.alike_kept hvalue fun hname => ?_⟩
  exact htest _ (test_of_find?_size hproperties (by simpa using hname) hfind)

end Graph

end SearchLab
