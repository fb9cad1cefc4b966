import SearchLab.Proofs.Double.Counting
import SearchLab.Proofs.Graph.Refusal

/-!
# Values that can be set back

What a property shows is read out of the graph, and need not be a value that the property takes: where there is no start
null is shown, which is no id; a node that is not the start shows so, but can only be made the start; and so on. A
property that is `Restorable` shows a value that can be set, and that is shown again then.

* `restorable_iff` — which properties are;
* `sizeReturns_of_le` — among them are the sizes of all grids that are not beyond counting;
* `restorable_iff_set_back` — these and no others can be set to something else and back.
-/

namespace SearchLab

namespace Property

variable {p q : Property} {properties properties' : List Property} {name : String}

/-- A property without its present value: what is left are the rules for changing it. -/
def rule (p : Property) : Property := { p with value := .null }

/-- Whether a value is refused has nothing to do with the present one. -/
theorem refusal?_of_rule (h : q.rule = p.rule) (value : Json) : q.refusal? value = p.refusal? value := by
  have hq : q.refusal? value = q.rule.refusal? value := rfl
  rw [hq, h]
  rfl

/-- Properties with the same rules are found under the same names. -/
theorem find?_of_rule (h : properties'.map rule = properties.map rule) (hfind : find? properties name = some p) :
    ∃ q, find? properties' name = some q ∧ q.rule = p.rule := by
  have hmap : ∀ ps : List Property, find? (ps.map rule) name = (find? ps name).map rule := fun ps => List.find?_map ..
  have hfound : (find? properties' name).map rule = some p.rule := by
    rw [← hmap, h, hmap, hfind, Option.map_some]
  exact Option.map_eq_some_iff.mp hfound

end Property

namespace Json

theorem ofFloat_of_finite {x : Float} (hx : (Number.float x).Finite) : ofFloat x = .number (.float x) := by
  have hout : (x.isNaN || x.isInf) = false := Bool.or_eq_false_iff.mpr hx
  rw [ofFloat, hout]
  rfl

/-- A double is a number if it is finite. -/
theorem accepts_ofFloat {x : Float} : PropertyType.number.accepts (ofFloat x) = true ↔ (Number.float x).Finite := by
  have hfloat : (Number.float x).toFloat = x := rfl
  unfold ofFloat Number.Finite
  rw [hfloat]
  cases x.isNaN <;> cases x.isInf <;> simp [PropertyType.accepts]

/-- Doubles are kept, but for those of some names. -/
theorem kept_ofFloat (name : String) (hweight : name ≠ "weight") (hsize : name ∉ ["width", "height"]) (x : Float) :
    kept name (ofFloat x) = ofFloat x := by
  have hfloat : (Number.float x).toFloat = x := rfl
  by_cases hout : (x.isNaN || x.isInf) = true
  · have hnull : ofFloat x = .null := if_pos hout
    rw [hnull]
    rfl
  · have hnumber : ofFloat x = .number (.float x) := if_neg hout
    rw [hnumber, kept, if_neg hweight, if_neg hsize, hfloat, hnumber]

theorem kept_weight {x : Float} (hx : (Number.float x).Finite) (hzero : (x == 0.0) = false) :
    kept "weight" (ofFloat x) = ofFloat x := by
  have hcost : costKept (Number.float x).toFloat = x := by
    rw [costKept_of_finite hx]
    simp [Number.toFloat, hzero]
  rw [ofFloat_of_finite hx, kept, if_pos rfl, hcost, ofFloat_of_finite hx]

end Json

/-- No edge costs a zero. -/
theorem toFloat_weightOf_ne_zero (data : Bag) : ((weightOf data).toFloat == 0.0) = false := by
  unfold weightOf
  split
  · split
    · decide +kernel
    · rename_i hzero
      simpa using hzero
  · decide +kernel

namespace Graph

variable {g g' : Graph} {target : Target} {name : String} {p : Property} {properties properties' : List Property}

/-- The rules for what is there are the same on all grids, and on all graphs that are none. -/
theorem rules_of_kind (hkind : g'.isGrid = g.isGrid) (h : g.propertiesOf target = .ok properties)
    (h' : g'.propertiesOf target = .ok properties') : properties'.map Property.rule = properties.map Property.rule := by
  cases target with
  | graph =>
      cases h
      cases h'
      cases hgrid : g.grid <;> cases hgrid' : g'.grid <;>
        simp [isGrid, hgrid, hgrid', graphProperties, Property.rule] at hkind ⊢
  | node id =>
      obtain ⟨_, n, -, -, rfl⟩ := node_of_properties h
      obtain ⟨_, n', -, -, rfl⟩ := node_of_properties h'
      cases hgrid : g.isGrid <;> simp [nodeProperties, hkind, hgrid, Property.rule]
  | edge id =>
      obtain ⟨_, -, rfl⟩ := edge_of_properties h
      obtain ⟨_, -, rfl⟩ := edge_of_properties h'
      rfl

/-- A size that is read back when it is set: as a double it is above zero and without a fraction, and it leads to the
size again. -/
def SizeReturns (n : Nat) : Prop :=
  Json.isPositiveWhole (.nat n) = true ∧ (Number.int n).toFloat.toUInt64.toNat = n

/-- Sizes from 1 to `2^53` are read back. -/
theorem sizeReturns_of_le {n : Nat} (hpos : 0 < n) (hmost : n ≤ 2 ^ 53) : SizeReturns n := by
  have hfloat : (Number.int n).toFloat = Float.ofNat n := rfl
  have hword := Double.toNat_toUInt64_ofNat hmost
  have hwhole : ((Float.ofNat n).toUInt64.toFloat == Float.ofNat n) = true := by
    rw [Double.toFloat_eq_ofNat, hword]
    exact Double.beq_self (Double.isNaN_ofNat hpos hmost)
  have hpositive : 0.0 < Float.ofNat n := (Double.ofNat_lt_ofNat_iff (Nat.zero_le _) hmost).mpr hpos
  exact ⟨by simp [Json.nat, Json.isPositiveWhole, Double.isWhole, hfloat, hwhole, hpositive], hword⟩

/-- A property shows a value that it takes itself: there is a start, or a goal; the size is read back; the node is the
start, or the goal; its state is one of those that there are; and a cost or an estimate is finite. All other properties
do in any case. -/
def Restorable (g : Graph) (target : Target) (name : String) : Prop :=
  match target, name with
  | .graph, "start" => g.start ≠ none
  | .graph, "end" => g.goal ≠ none
  | .graph, "width" => ∀ spec, g.grid = some spec → SizeReturns spec.width
  | .graph, "height" => ∀ spec, g.grid = some spec → SizeReturns spec.height
  | .graph, "diagonal_weights" => ∀ spec, g.grid = some spec → spec.diagonal.Finite
  | .node id, "is_start" => ∀ slot, g.slot? id = some slot → g.start = some slot
  | .node id, "is_goal" => ∀ slot, g.slot? id = some slot → g.goal = some slot
  | .node id, "h" => ∀ slot, g.slot? id = some slot → (Number.float (g.heuristic slot)).Finite
  | .node id, "state" =>
      ∀ slot, g.slot? id = some slot → ∀ n, g.node? slot = some n → n.state ∈ ["", "visited", "expanded"]
  | .edge id, "weight" => ∀ e, g.edge? id = some e → e.weight.Finite
  | _, _ => True

/-- A number that is not refused for anything but its type. -/
theorem refusal?_number {name : String} {value : Json} {v : Json} :
    ({ name, type := .number, value } : Property).refusal? v = none ↔ PropertyType.number.accepts v = true := by
  cases h : PropertyType.number.accepts v <;> simp [Property.refusal?, h]

theorem restorable_graph_iff (hg : g.Arena) (hp : p ∈ g.graphProperties) :
    g.Restorable .graph p.name ↔ p.refusal? p.value = none ∧ Json.kept p.name p.value = p.value := by
  simp only [graphProperties, List.mem_append, List.mem_cons, List.not_mem_nil, or_false] at hp
  rcases hp with (rfl | rfl | rfl | rfl) | hp
  · cases hstart : g.start with
    | none => simp [Restorable, hstart, Property.refusal?, idValue, PropertyType.accepts]
    | some slot =>
        obtain ⟨n, hn⟩ := live_iff.mp (hg.start hstart)
        simp [Restorable, hstart, Property.refusal?, idValue, idOf?, hn, PropertyType.accepts, Json.kept]
  · cases hgoal : g.goal with
    | none => simp [Restorable, hgoal, Property.refusal?, idValue, PropertyType.accepts]
    | some slot =>
        obtain ⟨n, hn⟩ := live_iff.mp (hg.goal hgoal)
        simp [Restorable, hgoal, Property.refusal?, idValue, idOf?, hn, PropertyType.accepts, Json.kept]
  · exact ⟨fun _ => ⟨rfl, rfl⟩, fun _ => trivial⟩
  · exact ⟨fun _ => ⟨rfl, rfl⟩, fun _ => trivial⟩
  · cases hgrid : g.grid with
    | none => simp [hgrid] at hp
    | some spec =>
        simp only [hgrid, List.mem_cons, List.not_mem_nil, or_false] at hp
        rcases hp with rfl | rfl | rfl
        · simp [Restorable, hgrid, SizeReturns, Property.refusal?, PropertyType.accepts, Json.nat, Json.kept]
        · simp [Restorable, hgrid, SizeReturns, Property.refusal?, PropertyType.accepts, Json.nat, Json.kept]
        · have hkept := Json.kept_ofFloat "diagonal_weights" (by decide) (by decide) spec.diagonal.value
          rw [refusal?_number, Json.accepts_ofFloat, and_iff_left hkept]
          simp [Restorable, hgrid, Diagonal.Finite, Number.Finite, Number.toFloat]

theorem restorable_node_iff {id : String} {slot : Nat} {n : Node} (hg : g.Arena) (hslot : g.slot? id = some slot)
    (hn : g.node? slot = some n) (hp : p ∈ g.nodeProperties n) (hfixed : p.fixed = false) :
    g.Restorable (.node id) p.name ↔ p.refusal? p.value = none ∧ Json.kept p.name p.value = p.value := by
  have hnumber := hg.slot hn
  simp only [nodeProperties, List.mem_append, List.mem_cons, List.not_mem_nil, or_false] at hp
  rcases hp with (rfl | rfl | rfl | rfl | rfl | rfl | rfl | rfl) | hp
  · cases hfixed
  · exact ⟨fun _ => ⟨rfl, rfl⟩, fun _ => trivial⟩
  · simp [Restorable, hslot, Property.refusal?, PropertyType.accepts, Json.kept, Json.isTruthy, hnumber]
  · simp [Restorable, hslot, Property.refusal?, PropertyType.accepts, Json.kept, Json.isTruthy, hnumber]
  · have hkept := Json.kept_ofFloat "h" (by decide) (by decide) (g.heuristic n.slot)
    rw [refusal?_number, Json.accepts_ofFloat, and_iff_left hkept]
    simp [Restorable, hslot, hnumber]
  · exact ⟨fun _ => ⟨rfl, rfl⟩, fun _ => trivial⟩
  · exact ⟨fun _ => ⟨rfl, rfl⟩, fun _ => trivial⟩
  · have hoptions : g.Restorable (.node id) "state" ↔ n.state ∈ ["", "visited", "expanded"] := by
      simp [Restorable, hslot, hn]
    rw [hoptions]
    have hsame : ∀ text, Json.same (.text text) (.text n.state) = (text == n.state) := fun _ => rfl
    simp [Property.refusal?, PropertyType.accepts, Json.kept, hsame]
    grind
  · split at hp
    · simp only [List.mem_cons, List.not_mem_nil, or_false] at hp
      rcases hp with rfl | rfl <;> cases hfixed
    · exact absurd hp List.not_mem_nil

theorem restorable_edge_iff {id : EdgeId} {e : Edge} (hedge : g.edge? id = some e)
    (hp : p ∈ g.edgeProperties ⟨e, id.isReverse⟩) (hfixed : p.fixed = false) :
    g.Restorable (.edge id) p.name ↔ p.refusal? p.value = none ∧ Json.kept p.name p.value = p.value := by
  simp only [edgeProperties, List.mem_cons, List.not_mem_nil, or_false] at hp
  rcases hp with rfl | rfl | rfl | rfl | rfl | rfl | rfl | rfl
  · cases hfixed
  · cases hfixed
  · cases hfixed
  · have hweight : g.Restorable (.edge id) "weight" ↔ (Number.float e.weight.toFloat).Finite := by
      simp [Restorable, hedge, Number.Finite, Number.toFloat]
    rw [refusal?_number, Json.accepts_ofFloat, hweight]
    exact (and_iff_left_of_imp fun hfinite => Json.kept_weight hfinite (toFloat_weightOf_ne_zero e.data)).symm
  · exact ⟨fun _ => ⟨rfl, rfl⟩, fun _ => trivial⟩
  · exact ⟨fun _ => ⟨rfl, rfl⟩, fun _ => trivial⟩
  · exact ⟨fun _ => ⟨rfl, rfl⟩, fun _ => trivial⟩
  · exact ⟨fun _ => ⟨rfl, rfl⟩, fun _ => trivial⟩

/-- A property can be set to what it shows, and shows the same then, just where it is restorable. -/
theorem restorable_iff (hg : g.Arena) (hproperties : g.propertiesOf target = .ok properties) (hp : p ∈ properties)
    (hfixed : p.fixed = false) :
    g.Restorable target p.name ↔ p.refusal? p.value = none ∧ Json.kept p.name p.value = p.value := by
  cases target with
  | graph =>
      cases hproperties
      exact restorable_graph_iff hg hp
  | node id =>
      obtain ⟨slot, n, hslotOf, hn, rfl⟩ := node_of_properties hproperties
      rcases g.slotOf_cases id with ⟨-, hmissing⟩ | ⟨slot', hslot, hfound⟩
      · cases hslotOf.symm.trans hmissing
      · obtain rfl := Except.ok.inj (hslotOf.symm.trans hfound)
        exact restorable_node_iff hg hslot hn hp hfixed
  | edge id =>
      obtain ⟨e, hedge, rfl⟩ := edge_of_properties hproperties
      exact restorable_edge_iff hedge hp hfixed

/-! ## The way back -/

/-- A size that was left can be returned to, as far as the start and the goal are concerned. -/
theorem not_dropsEnd_of_resize {spec : GridSpec} {width height : Nat} (ht : Tiled spec g)
    (h : resize width height g = .ok () g') : ¬ g'.DropsEnd spec.width spec.height := by
  have hg' : g'.Arena := by
    rcases ht.resize width height with ⟨-, hrefused⟩ | ⟨-, g'', hsized, ht'⟩
    · cases hrefused.symm.trans h
    · cases hsized.symm.trans h
      exact ht'.arena
  have hspares := spares_of_resize ht.arena ht.grid h
  rintro ⟨n, hn, hoff, hend⟩
  obtain ⟨s, hs⟩ := mem_nodeList.mp hn
  obtain rfl := hg'.slot hs
  -- The start or the goal is one of the cells that there were, and these lie within the size that was left.
  have hlive : g.Live n.slot := by
    rw [hspares.start, hspares.goal] at hend
    exact hend.elim (fun hstart => ht.arena.start hstart.symm) fun hgoal => ht.arena.goal hgoal.symm
  rcases hspares.laid hs with hwas | ⟨hnew, -⟩
  · obtain ⟨hx, hy⟩ := ht.inside (x := n.x) (y := n.y) (placeOf?_of_node? hwas)
    omega
  · obtain ⟨m, hm⟩ := live_iff.mp hlive
    rw [node?, Array.getElem?_eq_none hnew] at hm
    cases hm

/-- A start or a goal is shown by the id of its node, which leads to it. -/
theorem Arena.idValue_of_live (hg : g.Arena) {shown : Option Nat} (hlive : ∀ {slot}, shown = some slot → g.Live slot)
    (h : shown ≠ none) : ∃ id, g.idValue shown = .text id ∧ g.slot? id ≠ none := by
  obtain ⟨slot, rfl⟩ := Option.ne_none_iff_exists'.mp h
  obtain ⟨n, hn⟩ := live_iff.mp (hlive rfl)
  have hslot := (hg.lookup n.id slot).mpr ⟨n, hn, rfl⟩
  exact ⟨n.id, by simp [idValue, idOf?, hn], by simp [hslot]⟩

/-- A grid that was brought to another size has neither the start nor the goal outside the size that it left. -/
theorem of_sized {spec : GridSpec} (hg : g.Reachable) (hgrid : g.grid = some spec) {value : Json} {made : Bool}
    (width height : GridSpec → Float → Nat)
    (h : (do
      let spec ← Edit.check gridSpec
      let n ← needNumber value
      resize (width spec n) (height spec n)
      return true : Edit Graph Bool) g = .ok made g') :
    ∃ n, g'.redraw.grid = some { spec with width := width spec n, height := height spec n } ∧
      ¬ g'.redraw.DropsEnd spec.width spec.height := by
  have hspec : g.gridSpec = .ok spec := by simp [gridSpec, hgrid]
  obtain ⟨spec', hspec', hneed⟩ := Edit.of_check_bind h
  obtain rfl := Except.ok.inj (hspec.symm.trans hspec')
  obtain ⟨n, -, hset⟩ := of_needNumber_bind hneed
  obtain ⟨_, _, hresize, hlast⟩ := Edit.of_bind_ok hset
  cases hlast
  have hgrid' := grid_of_resize hspec hresize
  have hkeeps := not_dropsEnd_of_resize (hg.tiled_of_grid hgrid) hresize
  exact ⟨n.toFloat, hgrid', hkeeps⟩

/-- Where a restorable property of a graph was set, nothing bars the way back. -/
theorem not_barred_back (hg : g.Reachable) {new : Json} (h : setProperty .graph p.name new g = .ok true g')
    (hp : p ∈ g.graphProperties) (hrestorable : g.Restorable .graph p.name) : ¬ g'.Barred p.name p.value := by
  obtain ⟨harena, -⟩ := hg.arena_indexed
  obtain ⟨-, -, g₁, -, -, happly, rfl⟩ := of_setProperty h
  simp only [graphProperties, List.mem_append, List.mem_cons, List.not_mem_nil, or_false] at hp
  rcases hp with (rfl | rfl | rfl | rfl) | hp
  · -- The start.
    obtain ⟨id, -, hid⟩ := of_needText_bind happly
    obtain ⟨slot, -, hset⟩ := Edit.of_check_bind hid
    cases of_setStart_bind hset
    obtain ⟨shown, hvalue, hlive⟩ := harena.idValue_of_live harena.start hrestorable
    rw [hvalue]
    exact hlive
  · -- The end.
    obtain ⟨id, -, hid⟩ := of_needText_bind happly
    obtain ⟨slot, -, hset⟩ := Edit.of_check_bind hid
    cases of_setGoal_bind hset
    obtain ⟨shown, hvalue, hlive⟩ := harena.idValue_of_live harena.goal hrestorable
    rw [hvalue]
    exact hlive
  · exact id
  · exact id
  · cases hgrid : g.grid with
    | none =>
        rw [hgrid] at hp
        exact absurd hp List.not_mem_nil
    | some spec =>
        simp only [hgrid, List.mem_cons, List.not_mem_nil, or_false] at hp
        rcases hp with rfl | rfl | rfl
        · -- The width.
          obtain ⟨n, hgrid', hkeeps⟩ :=
            of_sized hg hgrid (fun _ n => n.toUInt64.toNat) (fun spec _ => spec.height) happly
          have hwidth : (Number.int spec.width).toFloat.toUInt64.toNat = spec.width := (hrestorable spec hgrid).2
          rw [Json.nat, (barred_size_iff hgrid' _).1, hwidth]
          exact hkeeps
        · -- The height.
          obtain ⟨n, hgrid', hkeeps⟩ :=
            of_sized hg hgrid (fun spec _ => spec.width) (fun _ n => n.toUInt64.toNat) happly
          have hheight : (Number.int spec.height).toFloat.toUInt64.toNat = spec.height := (hrestorable spec hgrid).2
          rw [Json.nat, (barred_size_iff hgrid' _).2, hheight]
          exact hkeeps
        · exact id

theorem run_setProperty {value : Json} {made : Bool} (h : setProperty target name value g = .ok made g') :
    (Operation.setProperty target name value).run g = g' :=
  Edit.after_ok (Edit.bind_ok h)

/-- What a property that was set says to a value is what it said before. -/
theorem checkUpdate_of_made (hg : g.Reachable) {old new : Json} (hold : g.getProperty target name = .ok old)
    (hmade : setProperty target name new g = .ok true g') :
    ∃ properties p properties' q, g.propertiesOf target = .ok properties ∧ p ∈ properties ∧ p.name = name ∧
      p.fixed = false ∧ p.value = old ∧ g'.propertiesOf target = .ok properties' ∧
      Property.checkUpdate properties' name old = (p.refusal? old).elim (.ok (some q)) .error := by
  obtain ⟨harena, -⟩ := hg.arena_indexed
  obtain ⟨properties, p, -, hproperties, hcheck, -⟩ := of_setProperty hmade
  obtain ⟨hfind, -⟩ := Property.of_checkUpdate hcheck
  obtain ⟨hp, hname⟩ := Property.mem_of_checkUpdate hcheck
  have hvalue : p.value = old := by
    simpa [getProperty, hproperties, hfind] using hold
  have hread := getProperty_setProperty_eq harena hmade
  unfold getProperty at hread
  split at hread
  · cases hread
  · rename_i properties' hproperties'
    have hkind : g'.isGrid = g.isGrid := by
      have hmutated := (Operation.setProperty target name new).mutated_run harena
      rw [run_setProperty hmade] at hmutated
      exact hmutated.isGrid
    obtain ⟨q, hfind', hrule⟩ := Property.find?_of_rule (rules_of_kind hkind hproperties hproperties') hfind
    refine ⟨properties, p, properties', q, hproperties, hp, hname, Property.not_fixed_of_checkUpdate hcheck, hvalue,
      hproperties', ?_⟩
    unfold Property.checkUpdate
    rw [hfind']
    dsimp only
    rw [Property.refusal?_of_rule hrule]
    cases p.refusal? old <;> rfl

/-- A property that was set can be set back, and shows what it showed before, just where it is restorable. -/
theorem restorable_iff_set_back (hg : g.Reachable) {old new : Json} (hold : g.getProperty target name = .ok old)
    (hmade : setProperty target name new g = .ok true g') :
    g.Restorable target name ↔
      ∃ g'', setProperty target name old g' = .ok true g'' ∧ g''.getProperty target name = .ok old := by
  have hg' : g'.Reachable := run_setProperty hmade ▸ hg.run (.setProperty target name new)
  obtain ⟨properties, p, properties', q, hproperties, hp, rfl, hfixed, rfl, hproperties', hcheck⟩ :=
    checkUpdate_of_made hg hold hmade
  have hiff := restorable_iff hg.arena_indexed.1 hproperties hp hfixed
  have hends := ends_setProperty hg' target p.name p.value
  constructor
  · intro hrestorable
    obtain ⟨haccepted, hkept⟩ := hiff.mp hrestorable
    rw [haccepted] at hcheck
    generalize hback : setProperty target p.name p.value g' = result at hends
    cases hends with
    | missing hmissing => cases hproperties'.symm.trans hmissing
    | passedOver hfound hnone =>
        obtain rfl := Except.ok.inj (hproperties'.symm.trans hfound)
        cases hcheck.symm.trans hnone
    | refused hfound hrefused =>
        obtain rfl := Except.ok.inj (hproperties'.symm.trans hfound)
        cases hcheck.symm.trans hrefused
    | barred htarget _ hbarred =>
        subst htarget
        cases hproperties
        exact absurd hbarred (not_barred_back hg hmade hp hrestorable)
    | made _ _ _ g'' =>
        have hread := getProperty_setProperty_eq hg'.arena_indexed.1 hback
        rw [hkept] at hread
        exact ⟨g'', rfl, hread⟩
  · rintro ⟨g'', hback, hread⟩
    have hshown := (getProperty_setProperty_eq hg'.arena_indexed.1 hback).symm.trans hread
    obtain ⟨_, _, _, hfound, haccepted, -⟩ := of_setProperty hback
    obtain rfl := Except.ok.inj (hproperties'.symm.trans hfound)
    refine hiff.mpr ⟨?_, Except.ok.inj hshown⟩
    cases hrefusal : p.refusal? p.value with
    | none => rfl
    | some e =>
        rw [hrefusal] at hcheck
        cases hcheck.symm.trans haccepted

end Graph

end SearchLab
