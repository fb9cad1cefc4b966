import SearchLab.Proofs.Edit
import SearchLab.Proofs.Graph.Arena
import SearchLab.Replay.Change

/-!
# What a replay shows

A replay shows of a graph how the search ended, how far it has come with each node, and at which nodes and edges it
points. A `Look` is all of that at once. Setting one of these properties changes one spot of the look, and what that
does is known from the look alone, whatever else the graph holds.

* `Graph.getProperty_eq_ok_iff` — such a property reads what its spot shows;
* `Graph.setProperty_shows` — setting it succeeds where its spot takes the value, and shows the value;
* `Change.setNew_shows`, `Change.setOld_shows` — the properties of a step, set and taken back;
* `Look.restored_written_iff` — when taking them back restores the look.
-/

namespace SearchLab

/-- Where a replay shows something of a graph. -/
inductive Spot where
  /-- How far the search has come with the node in a slot. -/
  | state (slot : Nat)
  /-- Whether it points at the node in a slot. -/
  | node (slot : Nat)
  /-- Whether it points at the edge at a place. -/
  | edge (place : Nat)
deriving DecidableEq

/-- Where a property of something addressed is shown. An edge is shown at one spot under both of its addresses. -/
def spot? (slots : Std.HashMap String Nat) : Target → String → Option Spot
  | .node id, "state" => slots[id]?.map .state
  | .node id, "highlighted" => slots[id]?.map .node
  | .edge id, "highlighted" => (Graph.place? id).map .edge
  | _, _ => none

/-- The words for how far a search has come with a node. -/
def stateWords : List String := ["", "visited", "expanded"]

/-- The values that may be shown at a spot. -/
def Spot.Fits : Spot → Json → Prop
  | .state _, value => ∃ word ∈ stateWords, value = .text word
  | .node _, value | .edge _, value => ∃ on, value = .bool on

/-- The properties that a step sets. -/
def Tracked (property : String) : Prop := property = "state" ∨ property = "highlighted"

/-- Values of properties, each under its address. -/
abbrev Values : Type := List ((Target × String) × Json)

/-- What a graph shows, and the slots by which its nodes are addressed. -/
structure Look where
  slots : Std.HashMap String Nat
  outcome : Outcome
  /-- What each spot shows: nothing where there is no node or edge. -/
  shown : Spot → Option Json

namespace Graph

/-- What a graph shows at a spot. -/
def shown (g : Graph) : Spot → Option Json
  | .state slot => (g.node? slot).map fun n => .text n.state
  | .node slot => (g.node? slot).map fun n => .bool n.isHighlighted
  | .edge place => (g.edgeAt? place).map fun e => .bool (e.data.isTruthy "highlighted")

/-- All that a graph shows. -/
def look (g : Graph) : Look := ⟨g.slots, g.outcome, g.shown⟩

end Graph

namespace Look

/-- The look with a value shown at a spot, where there is something to show. -/
def put (l : Look) (spot : Spot) (value : Json) : Look :=
  { l with shown := fun s => if s = spot then (l.shown s).map fun _ => value else l.shown s }

/-- The look after a property was set. -/
def set (l : Look) (target : Target) (property : String) (value : Json) : Look :=
  match spot? l.slots target property with
  | some spot => l.put spot value
  | none => l

/-- The look of a search that ended otherwise. -/
def withOutcome (l : Look) (outcome : Outcome) : Look := { l with outcome }

/-- Values laid over a look, the first of them on top. -/
def overlaid (l : Look) (values : Values) : Look :=
  values.foldr (fun v l => l.set v.1.1 v.1.2 v.2) l

/-- The values that some changes set, the last one first. -/
def newValues (changes : List PropertyChange) : Values :=
  changes.reverse.map fun c => ((c.target, c.property), c.new)

/-- The values that some changes replace. -/
def oldValues (changes : List PropertyChange) : Values :=
  changes.map fun c => ((c.target, c.property), c.old)

/-- The look after the new values of some changes were set in order. -/
def written (l : Look) (changes : List PropertyChange) : Look := l.overlaid (newValues changes)

/-- The look after the old values of some changes were set, the last one first. -/
def restored (l : Look) (changes : List PropertyChange) : Look := l.overlaid (oldValues changes)

/-- The first of some values that is shown at a spot. -/
def topmost? (slots : Std.HashMap String Nat) (values : Values) (spot : Spot) : Option Json :=
  (values.find? fun v => spot? slots v.1.1 v.1.2 = some spot).map Prod.snd

/-- A property is shown somewhere, and may be set to a value. -/
def Takes (l : Look) (target : Target) (property : String) (value : Json) : Prop :=
  ∃ spot, spot? l.slots target property = some spot ∧ (l.shown spot).isSome = true ∧ spot.Fits value

/-- Two looks show something at the same spots, and address them alike. -/
structure Matches (l l' : Look) : Prop where
  slots : l.slots = l'.slots
  present : ∀ spot, (l.shown spot).isSome = (l'.shown spot).isSome

/-! ## Looks that match -/

theorem Matches.refl (l : Look) : Matches l l := ⟨rfl, fun _ => rfl⟩

theorem Matches.symm {l l' : Look} (h : Matches l l') : Matches l' l :=
  ⟨h.slots.symm, fun spot => (h.present spot).symm⟩

theorem Matches.trans {l l' l'' : Look} (h : Matches l l') (h' : Matches l' l'') : Matches l l'' :=
  ⟨h.slots.trans h'.slots, fun spot => (h.present spot).trans (h'.present spot)⟩

/-- Where one look has something to show, so has the other. -/
theorem Matches.map_shown {l l' : Look} (h : Matches l l') (spot : Spot) (value : Json) :
    ((l.shown spot).map fun _ => value) = (l'.shown spot).map fun _ => value := by
  have hpresent := h.present spot
  cases hold : l.shown spot <;> cases hnew : l'.shown spot <;> simp [hold, hnew] at hpresent ⊢

theorem Takes.of_matches {l l' : Look} (h : Matches l l') {target : Target} {property : String} {value : Json}
    (htakes : l.Takes target property value) : l'.Takes target property value := by
  obtain ⟨spot, hspot, hpresent, hfits⟩ := htakes
  exact ⟨spot, h.slots ▸ hspot, h.present spot ▸ hpresent, hfits⟩

theorem slots_set (l : Look) (target : Target) (property : String) (value : Json) :
    (l.set target property value).slots = l.slots := by
  unfold set
  split <;> rfl

theorem outcome_set (l : Look) (target : Target) (property : String) (value : Json) :
    (l.set target property value).outcome = l.outcome := by
  unfold set
  split <;> rfl

/-- What a spot shows after a property was set. -/
theorem shown_set (l : Look) (target : Target) (property : String) (value : Json) (spot : Spot) :
    (l.set target property value).shown spot =
      if spot? l.slots target property = some spot then (l.shown spot).map fun _ => value else l.shown spot := by
  unfold set
  split
  · rename_i other hother
    by_cases h : spot = other
    · simp [put, hother, h]
    · have h' : ¬ other = spot := fun heq => h heq.symm
      simp [put, hother, h, h']
  · rename_i hnone
    simp [hnone]

theorem matches_set (l : Look) (target : Target) (property : String) (value : Json) :
    Matches l (l.set target property value) where
  slots := (slots_set l target property value).symm
  present := by
    intro spot
    rw [shown_set]
    split <;> simp

/-- Setting a property keeps what two looks have in common. -/
theorem Matches.set {l l' : Look} (h : Matches l l') (target : Target) (property : String) (value : Json) :
    Matches (l.set target property value) (l'.set target property value) :=
  ((matches_set l target property value).symm.trans h).trans (matches_set l' target property value)

/-! ## Values laid over a look -/

theorem overlaid_cons (l : Look) (v : (Target × String) × Json) (values : Values) :
    l.overlaid (v :: values) = (l.overlaid values).set v.1.1 v.1.2 v.2 := rfl

theorem overlaid_append (l : Look) (upper lower : Values) :
    l.overlaid (upper ++ lower) = (l.overlaid lower).overlaid upper :=
  List.foldr_append

theorem slots_overlaid (l : Look) (values : Values) : (l.overlaid values).slots = l.slots := by
  induction values with
  | nil => rfl
  | cons v rest ih => rw [overlaid_cons, slots_set, ih]

theorem outcome_overlaid (l : Look) (values : Values) :
    (l.overlaid values).outcome = l.outcome := by
  induction values with
  | nil => rfl
  | cons v rest ih => rw [overlaid_cons, outcome_set, ih]

theorem withOutcome_eq_self_iff {l : Look} {outcome : Outcome} : l.withOutcome outcome = l ↔ l.outcome = outcome := by
  constructor
  · intro h
    exact (congrArg Look.outcome h).symm
  · rintro rfl
    rfl

theorem set_withOutcome (l : Look) (outcome : Outcome) (target : Target) (property : String) (value : Json) :
    (l.withOutcome outcome).set target property value = (l.set target property value).withOutcome outcome := by
  simp only [set, withOutcome]
  cases spot? l.slots target property <;> rfl

theorem overlaid_withOutcome (l : Look) (outcome : Outcome) (values : Values) :
    (l.withOutcome outcome).overlaid values = (l.overlaid values).withOutcome outcome := by
  induction values with
  | nil => rfl
  | cons v rest ih => rw [overlaid_cons, ih, overlaid_cons, set_withOutcome]

theorem matches_overlaid (l : Look) (values : Values) : Matches l (l.overlaid values) := by
  induction values with
  | nil => exact .refl l
  | cons v rest ih => exact ih.trans (matches_set (l.overlaid rest) v.1.1 v.1.2 v.2)

/-- Where there is something to show, a spot shows the topmost of the values laid over it. -/
theorem shown_overlaid (l : Look) (values : Values) (spot : Spot) :
    (l.overlaid values).shown spot =
      match topmost? l.slots values spot with
      | some value => (l.shown spot).map fun _ => value
      | none => l.shown spot := by
  induction values with
  | nil => rfl
  | cons v rest ih =>
      have hset := shown_set (l.overlaid rest) v.1.1 v.1.2 v.2 spot
      rw [slots_overlaid] at hset
      rw [overlaid_cons, hset]
      by_cases h : spot? l.slots v.1.1 v.1.2 = some spot
      · simp only [topmost?, List.find?_cons, h, decide_true, if_true, Option.map_some]
        exact ((matches_overlaid l rest).map_shown spot v.2).symm
      · simp only [topmost?, List.find?_cons, h, decide_false, if_false]
        exact ih

theorem topmost?_eq_none_iff {slots : Std.HashMap String Nat} {values : Values} {spot : Spot} :
    topmost? slots values spot = none ↔ ∀ v ∈ values, spot? slots v.1.1 v.1.2 ≠ some spot := by
  simp [topmost?, List.find?_eq_none]

/-- Where a spot has a topmost value, there is something to show, if each address of the values shows something. -/
theorem present_of_topmost? {l : Look} {values : Values} {spot : Spot} {value : Json}
    (htakes : ∀ v ∈ values, l.Takes v.1.1 v.1.2 v.2) (h : topmost? l.slots values spot = some value) :
    ∃ present, l.shown spot = some present := by
  obtain ⟨v, hv, -⟩ := Option.map_eq_some_iff.mp h
  obtain ⟨other, hother, hpresent, -⟩ := htakes v (List.mem_of_find?_eq_some hv)
  have hspot : spot? l.slots v.1.1 v.1.2 = some spot := by simpa using List.find?_some hv
  obtain rfl : other = spot := Option.some.inj (hother.symm.trans hspot)
  exact Option.isSome_iff_exists.mp hpresent

/-! ## Changes and back -/

/-- Changes taken back show the old values at their spots, and leave the others as they were. -/
theorem shown_restored_written (l : Look) (changes : List PropertyChange) (spot : Spot) :
    ((l.written changes).restored changes).shown spot =
      match topmost? l.slots (oldValues changes) spot with
      | some value => (l.shown spot).map fun _ => value
      | none => l.shown spot := by
  have hwritten : Matches l (l.written changes) := matches_overlaid l _
  have hback := shown_overlaid (l.written changes) (oldValues changes) spot
  rw [← hwritten.slots] at hback
  rw [show (l.written changes).restored changes = (l.written changes).overlaid (oldValues changes) from rfl, hback]
  cases holds : topmost? l.slots (oldValues changes) spot with
  | none =>
      have hnews : topmost? l.slots (newValues changes) spot = none := by
        simpa [topmost?_eq_none_iff, oldValues, newValues] using holds
      have hshown := shown_overlaid l (newValues changes) spot
      rw [hnews] at hshown
      exact hshown
  | some value => exact (hwritten.map_shown spot value).symm

/-- Taking changes back restores the look exactly when the old value that comes first for a spot is the one shown there. -/
theorem restored_written_iff {l : Look} {changes : List PropertyChange}
    (htakes : ∀ c ∈ changes, l.Takes c.target c.property c.old) :
    (l.written changes).restored changes = l ↔
      ∀ spot value, topmost? l.slots (oldValues changes) spot = some value → l.shown spot = some value := by
  constructor
  · intro hback spot value hvalue
    have hshown := shown_restored_written l changes spot
    rw [hback, hvalue] at hshown
    have hall : ∀ v ∈ oldValues changes, l.Takes v.1.1 v.1.2 v.2 := by
      intro v hv
      obtain ⟨c, hc, rfl⟩ := List.mem_map.mp hv
      exact htakes c hc
    obtain ⟨present, hpresent⟩ := present_of_topmost? hall hvalue
    rw [hshown, hpresent]
    rfl
  · intro hfirst
    have hshown : ((l.written changes).restored changes).shown = l.shown := by
      funext spot
      rw [shown_restored_written]
      split
      · rename_i value hvalue
        rw [hfirst spot value hvalue]
        rfl
      · rfl
    have hslots : ((l.written changes).restored changes).slots = l.slots :=
      (slots_overlaid _ _).trans (slots_overlaid _ _)
    have houtcome : ((l.written changes).restored changes).outcome = l.outcome :=
      (outcome_overlaid _ _).trans (outcome_overlaid _ _)
    exact congr (congr (congrArg Look.mk hslots) houtcome) hshown

end Look

/-! ## Graphs -/

namespace Graph

@[simp] theorem slots_look (g : Graph) : g.look.slots = g.slots := rfl

@[simp] theorem outcome_look (g : Graph) : g.look.outcome = g.outcome := rfl

@[simp] theorem shown_look (g : Graph) : g.look.shown = g.shown := rfl

theorem node?_redraw (g : Graph) (slot : Nat) : g.redraw.node? slot = g.node? slot := rfl

/-- The property of a node under a name that a step sets. -/
theorem find?_nodeProperties (g : Graph) (n : Node) :
    Property.find? (g.nodeProperties n) "state" =
      some { name := "state", type := .text, value := .text n.state, hidden := true,
             options := some [.text "", .text "visited", .text "expanded"] } ∧
    Property.find? (g.nodeProperties n) "highlighted" =
      some { name := "highlighted", type := .flag, value := .bool n.isHighlighted } := by
  constructor <;> simp [nodeProperties, Property.find?]

theorem find?_edgeProperties (g : Graph) (v : EdgeView) :
    Property.find? (g.edgeProperties v) "state" = none ∧
    Property.find? (g.edgeProperties v) "highlighted" =
      some { name := "highlighted", type := .flag, value := .bool (v.edge.data.isTruthy "highlighted") } := by
  constructor <;> simp [edgeProperties, Property.find?]

theorem find?_graphProperties (g : Graph) {property : String} (h : Tracked property) :
    Property.find? g.graphProperties property = none := by
  rcases h with rfl | rfl <;> cases hgrid : g.grid <;> simp [graphProperties, Property.find?, hgrid]

/-- A property that steps set reads what its spot shows. -/
theorem getProperty_eq_ok_iff (g : Graph) {target : Target} {property : String} (h : Tracked property) (value : Json) :
    g.getProperty target property = .ok value ↔
      ∃ spot, spot? g.slots target property = some spot ∧ g.shown spot = some value := by
  cases target with
  | graph =>
      have hnone := g.find?_graphProperties h
      rcases h with rfl | rfl <;> simp [getProperty, propertiesOf, hnone, spot?]
  | node id =>
      cases hslot : g.slots[id]? with
      | none => rcases h with rfl | rfl <;> simp [getProperty, propertiesOf, slotOf, slot?, spot?, hslot]
      | some slot =>
          cases hnode : g.node? slot with
          | none =>
              rcases h with rfl | rfl <;> simp [getProperty, propertiesOf, slotOf, slot?, spot?, hslot, hnode, shown]
          | some n =>
              rcases h with rfl | rfl <;>
                simp [getProperty, propertiesOf, slotOf, slot?, spot?, hslot, hnode, shown, g.find?_nodeProperties n]
  | edge id =>
      cases hplace : place? id with
      | none =>
          rcases h with rfl | rfl <;> simp [getProperty, propertiesOf, view?, edge?, spot?, hplace]
      | some place =>
          cases hedge : g.edgeAt? place with
          | none =>
              have hview : g.view? id = none := by simp [view?, edge?_eq, hplace, hedge]
              rcases h with rfl | rfl <;> simp [getProperty, propertiesOf, hview, spot?, hplace, hedge, shown]
          | some e =>
              have hview : g.view? id = some ⟨e, id.isReverse⟩ := by simp [view?, edge?_eq, hplace, hedge]
              rcases h with rfl | rfl <;>
                simp [getProperty, propertiesOf, hview, spot?, hplace, hedge, shown, g.find?_edgeProperties]

/-- A node's properties take the words for how far a search has come, and the truth values for whether it points
there. -/
theorem checkUpdate_node (g : Graph) (n : Node) :
    (∀ word ∈ stateWords, ∃ p, Property.checkUpdate (g.nodeProperties n) "state" (.text word) = .ok (some p)) ∧
    ∀ on, ∃ p, Property.checkUpdate (g.nodeProperties n) "highlighted" (.bool on) = .ok (some p) := by
  constructor
  · intro word hword
    simp only [stateWords, List.mem_cons, List.not_mem_nil, or_false] at hword
    rcases hword with rfl | rfl | rfl <;>
      simp [Property.checkUpdate, (g.find?_nodeProperties n).1, Property.refusal?, Json.same, PropertyType.accepts]
  · intro on
    simp [Property.checkUpdate, (g.find?_nodeProperties n).2, Property.refusal?, PropertyType.accepts]

theorem checkUpdate_edge (g : Graph) (v : EdgeView) (on : Bool) :
    ∃ p, Property.checkUpdate (g.edgeProperties v) "highlighted" (.bool on) = .ok (some p) := by
  simp [Property.checkUpdate, (g.find?_edgeProperties v).2, Property.refusal?, PropertyType.accepts]

/-- Setting a property of a node writes it into the node's data. -/
theorem setProperty_node {g : Graph} {id property : String} {slot : Nat} {n : Node} {value : Json} {p : Property}
    (h : Tracked property) (hslot : g.slots[id]? = some slot) (hnode : g.node? slot = some n)
    (hcheck : Property.checkUpdate (g.nodeProperties n) property value = .ok (some p)) :
    setProperty (.node id) property value g =
      .ok true (g.modifyNode slot fun n => { n with data := n.data.set property value }).redraw := by
  have hproperties : g.propertiesOf (.node id) = .ok (g.nodeProperties n) := by
    simp [propertiesOf, slotOf, slot?, hslot, hnode]
  have hslotOf : g.slotOf id = .ok slot := by simp [slotOf, slot?, hslot]
  have happly : applyToNode slot property value g =
      .ok true (g.modifyNode slot fun n => { n with data := n.data.set property value }) := by
    rcases h with rfl | rfl <;>
      · simp only [applyToNode, Edit.get_bind, hnode, Edit.require]
        rfl
  simp only [setProperty, Edit.check, Bind.bind, EStateM.bind, hproperties, hcheck, hslotOf, happly,
    Option.isNone_some, Bool.false_eq_true, if_false, if_true]
  rfl

/-- Setting whether a search points at an edge writes it into the edge's data. -/
theorem setProperty_edge {g : Graph} {id : EdgeId} {e : Edge} (hedge : g.edge? id = some e) (on : Bool) :
    setProperty (.edge id) "highlighted" (.bool on) g =
      .ok true (g.redraw.modifyEdge id fun e => { e with data := e.data.set "highlighted" (.bool on) }).redraw := by
  have hproperties : g.propertiesOf (.edge id) = .ok (g.edgeProperties ⟨e, id.isReverse⟩) := by
    simp [propertiesOf, view?, hedge]
  obtain ⟨p, hcheck⟩ := g.checkUpdate_edge ⟨e, id.isReverse⟩ on
  have happly : applyToEdge id "highlighted" (.bool on) g =
      .ok true (g.redraw.modifyEdge id fun e => { e with data := e.data.set "highlighted" (.bool on) }) := by
    have hedge' : g.redraw.edge? id = some e := hedge
    unfold applyToEdge
    rw [Edit.bind_ok (Edit.modify_ok redraw g), Edit.get_bind]
    simp only [hedge', Edit.require]
    rfl
  simp only [setProperty, Edit.check, Bind.bind, EStateM.bind, hproperties, hcheck, happly,
    Option.isNone_some, Bool.false_eq_true, if_false, if_true]
  rfl

/-- A graph that shows a value at a spot and is otherwise addressed and shown as before has the look with that value. -/
theorem look_eq_put {g g' : Graph} {spot : Spot} {value : Json} (hslots : g'.slots = g.slots)
    (houtcome : g'.outcome = g.outcome)
    (hshown : ∀ s, g'.shown s = if s = spot then (g.shown s).map fun _ => value else g.shown s) :
    g'.look = g.look.put spot value :=
  congr (congr (congrArg Look.mk hslots) houtcome) (funext hshown)

theorem look_writeState (g : Graph) (slot : Nat) (word : String) :
    (g.modifyNode slot fun n => { n with data := n.data.set "state" (.text word) }).redraw.look =
      g.look.put (.state slot) (.text word) := by
  refine look_eq_put rfl rfl fun spot => ?_
  cases spot with
  | state s =>
      by_cases h : slot = s
      · cases hnode : g.node? s <;>
          simp [shown, node?_redraw, node?_modifyNode, h, hnode, Node.state, Bag.text?, Bag.get?_set, Json.text?]
      · simp [shown, node?_redraw, node?_modifyNode, h, Ne.symm h]
  | node s =>
      by_cases h : slot = s
      · cases hnode : g.node? s <;>
          simp [shown, node?_redraw, node?_modifyNode, h, hnode, Node.isHighlighted, Bag.bool?, Bag.get?_set]
      · simp [shown, node?_redraw, node?_modifyNode, h]
  | edge place => rfl

theorem look_pointNode (g : Graph) (slot : Nat) (on : Bool) :
    (g.modifyNode slot fun n => { n with data := n.data.set "highlighted" (.bool on) }).redraw.look =
      g.look.put (.node slot) (.bool on) := by
  refine look_eq_put rfl rfl fun spot => ?_
  cases spot with
  | state s =>
      by_cases h : slot = s
      · cases hnode : g.node? s <;>
          simp [shown, node?_redraw, node?_modifyNode, h, hnode, Node.state, Bag.text?, Bag.get?_set]
      · simp [shown, node?_redraw, node?_modifyNode, h]
  | node s =>
      by_cases h : slot = s
      · cases hnode : g.node? s <;>
          simp [shown, node?_redraw, node?_modifyNode, h, hnode, Node.isHighlighted, Bag.bool?, Bag.get?_set,
            Json.bool?]
      · simp [shown, node?_redraw, node?_modifyNode, h, Ne.symm h]
  | edge place => rfl

theorem look_pointEdge (g : Graph) {id : EdgeId} {place : Nat} (hplace : place? id = some place) (on : Bool) :
    (g.redraw.modifyEdge id fun e => { e with data := e.data.set "highlighted" (.bool on) }).redraw.look =
      g.look.put (.edge place) (.bool on) := by
  have hedges : ∀ p, (g.redraw.modifyEdge id fun e => { e with data := e.data.set "highlighted" (.bool on) }).redraw.edgeAt? p =
      if place? id = some p then (g.edgeAt? p).map fun e => { e with data := e.data.set "highlighted" (.bool on) }
      else g.edgeAt? p :=
    edgeAt?_changeEdge g.redraw id _
  refine look_eq_put (by simp [modifyEdge, redraw]) ?_ fun spot => ?_
  · simp [modifyEdge, redraw, updateEdge, hplace]
  · cases spot with
    | state s => simp [shown, node?, modifyEdge, redraw]
    | node s => simp [shown, node?, modifyEdge, redraw]
    | edge p =>
        by_cases h : place = p
        · cases hedge : g.edgeAt? p <;>
            simp [shown, hedges, hplace, h, hedge, Bag.isTruthy, Bag.get?_set, Json.isTruthy]
        · simp [shown, hedges, hplace, h, Ne.symm h]

/-- Setting a property that its spot takes succeeds, shows the value there and changes nothing else that is shown. -/
theorem setProperty_shows {g : Graph} {target : Target} {property : String} {value : Json}
    (h : g.look.Takes target property value) :
    ∃ g', setProperty target property value g = .ok true g' ∧ g'.look = g.look.set target property value := by
  obtain ⟨spot, hspot, hpresent, hfits⟩ := h
  simp only [Look.set, hspot]
  simp only [slots_look, shown_look] at hspot hpresent
  unfold spot? at hspot
  split at hspot
  · -- How far a search has come with a node.
    obtain ⟨slot, hslot, rfl⟩ := Option.map_eq_some_iff.mp hspot
    obtain ⟨n, hnode⟩ : ∃ n, g.node? slot = some n := Option.isSome_iff_exists.mp (by simpa [shown] using hpresent)
    obtain ⟨word, hword, rfl⟩ := hfits
    obtain ⟨p, hcheck⟩ := (g.checkUpdate_node n).1 word hword
    exact ⟨_, setProperty_node (.inl rfl) hslot hnode hcheck, g.look_writeState slot word⟩
  · -- Whether it points at a node.
    obtain ⟨slot, hslot, rfl⟩ := Option.map_eq_some_iff.mp hspot
    obtain ⟨n, hnode⟩ : ∃ n, g.node? slot = some n := Option.isSome_iff_exists.mp (by simpa [shown] using hpresent)
    obtain ⟨on, rfl⟩ := hfits
    obtain ⟨p, hcheck⟩ := (g.checkUpdate_node n).2 on
    exact ⟨_, setProperty_node (.inr rfl) hslot hnode hcheck, g.look_pointNode slot on⟩
  · -- Whether it points at an edge.
    rename_i id
    obtain ⟨place, hplace, rfl⟩ := Option.map_eq_some_iff.mp hspot
    obtain ⟨e, hedge⟩ : ∃ e, g.edgeAt? place = some e := Option.isSome_iff_exists.mp (by simpa [shown] using hpresent)
    obtain ⟨on, rfl⟩ := hfits
    have hfound : g.edge? id = some e := by simp [edge?_eq, hplace, hedge]
    exact ⟨_, setProperty_edge hfound on, g.look_pointEdge hplace on⟩
  · exact absurd hspot (by simp)

end Graph

/-! ## The properties of a step -/

namespace Change

/-- Setting properties one after the other, where each takes its value, succeeds and shows them all. -/
theorem forM_setProperty_shows (value : PropertyChange → Json) {changes : List PropertyChange} {g : Graph}
    (h : ∀ c ∈ changes, g.look.Takes c.target c.property (value c)) :
    ∃ g', (changes.forM fun c => do let _ ← Graph.setProperty c.target c.property (value c)) g = .ok () g' ∧
      g'.look = g.look.overlaid (changes.reverse.map fun c => ((c.target, c.property), value c)) := by
  induction changes generalizing g with
  | nil => exact ⟨g, rfl, rfl⟩
  | cons c rest ih =>
      obtain ⟨g', hset, hlook⟩ := Graph.setProperty_shows (h c List.mem_cons_self)
      have hrest : ∀ d ∈ rest, g'.look.Takes d.target d.property (value d) := by
        intro d hd
        rw [hlook]
        exact (h d (List.mem_cons_of_mem c hd)).of_matches (g.look.matches_set c.target c.property (value c))
      obtain ⟨g'', hrun, hlook'⟩ := ih hrest
      have hfirst : (do let _ ← Graph.setProperty c.target c.property (value c) : Edit Graph Unit) g = .ok () g' :=
        Edit.bind_ok hset
      refine ⟨g'', (Edit.bind_ok hfirst).trans hrun, ?_⟩
      rw [hlook', hlook, List.reverse_cons, List.map_append, Look.overlaid_append]
      rfl

theorem setNew_shows {changes : List PropertyChange} {g : Graph}
    (h : ∀ c ∈ changes, g.look.Takes c.target c.property c.new) :
    ∃ g', setNew changes g = .ok () g' ∧ g'.look = g.look.written changes :=
  forM_setProperty_shows PropertyChange.new h

theorem setOld_shows {changes : List PropertyChange} {g : Graph}
    (h : ∀ c ∈ changes, g.look.Takes c.target c.property c.old) :
    ∃ g', setOld changes g = .ok () g' ∧ g'.look = g.look.restored changes := by
  have htakes : ∀ c ∈ changes.reverse, g.look.Takes c.target c.property c.old := fun c hc =>
    h c (List.mem_reverse.mp hc)
  obtain ⟨g', hrun, hlook⟩ := forM_setProperty_shows PropertyChange.old htakes
  rw [List.reverse_reverse] at hlook
  exact ⟨g', hrun, hlook⟩

end Change

end SearchLab
