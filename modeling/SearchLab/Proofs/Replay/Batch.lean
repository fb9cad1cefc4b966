import SearchLab.Proofs.Graph.Distances
import SearchLab.Proofs.Graph.Refusal
import SearchLab.Proofs.History.Chain

/-!
# Batches of changes

A command may set many properties, one after the other. It stops at the first change that is refused, and this one
changes nothing. But nothing is taken back either: the changes before it stay made, whether the command was being done
or taken back, and so a batch that failed has been made in part.

* `Change.of_setAll_error` — what a batch that fails leaves behind;
* `batch_stops_at_refusal` — the same for the command, done and taken back;
* `batch_made_in_part` — a batch that fails may change the graph.
-/

namespace SearchLab

namespace Change

variable {g g' : Graph} {below : Layers} {e : Error}

/-- Sets properties to one of the two values of each change, in order. -/
def setAll (value : PropertyChange → Json) (changes : List PropertyChange) : Edit Graph Unit :=
  changes.forM fun c => do
    let _ ← Graph.setProperty c.target c.property (value c)

/-- A batch whose first change does not fail goes on with the others. -/
theorem setAll_cons (value : PropertyChange → Json) {c : PropertyChange} {made : Bool}
    (h : Graph.setProperty c.target c.property (value c) g = .ok made g') (rest : List PropertyChange) :
    setAll value (c :: rest) g = setAll value rest g' :=
  Edit.bind_ok (Edit.bind_ok h)

/-- A batch is a run of operations. -/
theorem after_setAll_reachable (hg : g.Reachable) (value : PropertyChange → Json) (changes : List PropertyChange) :
    ((setAll value changes).after g).Reachable := by
  have hkeeps : (setAll value changes).Keeps Graph.Reachable :=
    .forM fun c _ g hg => hg.run (.setProperty c.target c.property (value c))
  exact hkeeps g hg

/-- A batch that fails has made the changes before the first one that was refused, and no others. -/
theorem of_setAll_error (hg : g.Reachable) (value : PropertyChange → Json) {changes : List PropertyChange}
    (h : setAll value changes g = .error e g') :
    ∃ made refused left, changes = made ++ refused :: left ∧ setAll value made g = .ok () g' ∧
      Graph.setProperty refused.target refused.property (value refused) g' = .error e g' := by
  obtain ⟨made, refused, left, g₁, rfl, hmade, hfails⟩ := Edit.of_forM_error h
  have hg₁ : ((setAll value made).after g).Reachable := after_setAll_reachable hg value made
  have hafter : (setAll value made).after g = g₁ := Edit.after_ok hmade
  rw [hafter] at hg₁
  have hwrite := Edit.of_discard_error hfails
  obtain rfl := Graph.eq_of_refused hg₁ hwrite
  exact ⟨made, refused, left, rfl, hmade, hwrite⟩

end Change

/-! ## The command -/

section Command

variable {c : Command Change} {changes : List PropertyChange}

/-- The command of a batch sets the new values in the top layer. -/
theorem execute_batch (hc : c.body = .properties changes) (hdone : c.done = false) (g : Graph) (below : Layers) :
    Command.execute (c, g :: below) =
      match Change.setNew changes g with
      | .ok _ g' => .ok () ({ c with done := true }, g' :: below)
      | .error e g' => .error e (c, g' :: below) := by
  obtain ⟨name, done, body⟩ := c
  cases hc
  rw [Command.execute_of_not_done hdone]
  simp only [Reversible.apply, Change.apply, Change.keeping, onTop]
  cases Change.setNew changes g <;> rfl

/-- Taken back, it sets the old values, the last one first. -/
theorem revert_batch (hc : c.body = .properties changes) (hdone : c.done = true) (g : Graph) (below : Layers) :
    Command.revert (c, g :: below) =
      match Change.setOld changes g with
      | .ok _ g' => .ok () ({ c with done := false }, g' :: below)
      | .error e g' => .error e (c, g' :: below) := by
  obtain ⟨name, done, body⟩ := c
  cases hc
  rw [Command.revert_of_done hdone]
  simp only [Reversible.revert, Change.revert, Change.keeping, onTop]
  cases Change.setOld changes g <;> rfl

end Command

/-- **A batch stops at the first change that is refused.** Where the command of a batch fails, the changes before one of
them are made, this one is refused by the graph that they lead to and changes nothing, and those behind it are not tried.
Taken back, the command goes through the old values from the last one on in the same way. In both cases the layers below
and the command are as before, and it is done only if it was. -/
theorem batch_stops_at_refusal {g : Graph} (hg : g.Reachable) (below layers : Layers) {c c' : Command Change}
    {changes : List PropertyChange} (hc : c.body = .properties changes) {e : Error} :
    (c.done = false → Command.execute (c, g :: below) = .error e (c', layers) →
      ∃ made refused left g', changes = made ++ refused :: left ∧ Change.setNew made g = .ok () g' ∧
        Graph.setProperty refused.target refused.property refused.new g' = .error e g' ∧
        c' = c ∧ layers = g' :: below) ∧
    (c.done = true → Command.revert (c, g :: below) = .error e (c', layers) →
      ∃ left refused made g', changes = left ++ refused :: made ∧ Change.setOld made g = .ok () g' ∧
        Graph.setProperty refused.target refused.property refused.old g' = .error e g' ∧
        c' = c ∧ layers = g' :: below) := by
  constructor
  · intro hdone hfails
    rw [execute_batch hc hdone] at hfails
    cases hset : Change.setNew changes g with
    | ok u g' => rw [hset] at hfails; cases hfails
    | error e' g' =>
        rw [hset] at hfails
        cases hfails
        obtain ⟨made, refused, left, hchanges, hmade, hrefused⟩ :=
          Change.of_setAll_error hg PropertyChange.new hset
        exact ⟨made, refused, left, g', hchanges, hmade, hrefused, rfl, rfl⟩
  · intro hdone hfails
    rw [revert_batch hc hdone] at hfails
    cases hset : Change.setOld changes g with
    | ok u g' => rw [hset] at hfails; cases hfails
    | error e' g' =>
        rw [hset] at hfails
        cases hfails
        obtain ⟨made, refused, left, hchanges, hmade, hrefused⟩ :=
          Change.of_setAll_error hg PropertyChange.old hset
        refine ⟨left.reverse, refused, made.reverse, g', ?_, ?_, hrefused, rfl, rfl⟩
        · simpa using congrArg List.reverse hchanges
        · rw [Change.setOld, List.reverse_reverse]
          exact hmade

/-! ## Batches that are made in part -/

namespace Graph

/-- The first edge of three is forbidden, and then one that is not there. -/
def forbidTwo : List PropertyChange :=
  [⟨.edge ⟨1⟩, "forbidden", .bool false, .bool true⟩, ⟨.edge ⟨4⟩, "forbidden", .bool false, .bool true⟩]

/-- The first of three nodes is made the start, where there was none, and then the first edge is forbidden. -/
def startAndForbid : List PropertyChange :=
  [⟨.graph, "start", .null, .text "A"⟩, ⟨.edge ⟨1⟩, "forbidden", .bool false, .bool true⟩]

theorem slot?_shortcut : shortcut.slot? "A" = some 0 := by
  have hslot : (((empty.withNode "A" 0 0 []).withNode "B" 0 0 []).withNode "C" 0 0 []).slot? "A" = some 0 := by
    rw [slot?_withNode, slot?_withNode, slot?_withNode]
    rfl
  exact hslot

/-- The first edge is forbidden though the second one is not there. -/
theorem execute_forbidTwo : ∃ e g', Command.execute (Change.setProperties forbidTwo, [shortcut]) =
      .error e (Change.setProperties forbidTwo, [g']) ∧
    shortcut.getProperty (.edge ⟨1⟩) "forbidden" = .ok (.bool false) ∧
    g'.getProperty (.edge ⟨1⟩) "forbidden" = .ok (.bool true) :=
  ⟨_, _, rfl, rfl, rfl⟩

/-- The edge is not forbidden any more though there must be a start. -/
theorem revert_startAndForbid : ∃ c g₁ e g₂, Command.execute (Change.setProperties startAndForbid, [shortcut]) =
      .ok () (c, [g₁]) ∧ g₁.Reachable ∧ c.body = .properties startAndForbid ∧ c.done = true ∧
    Command.revert (c, [g₁]) = .error e (c, [g₂]) ∧
    g₁.getProperty (.edge ⟨1⟩) "forbidden" = .ok (.bool true) ∧
    g₂.getProperty (.edge ⟨1⟩) "forbidden" = .ok (.bool false) := by
  have hstart := setProperty_start reachable_shortcut.arena_indexed.1 slot?_shortcut
  have hset : Change.setNew startAndForbid shortcut = .ok () ((setProperty (.edge ⟨1⟩) "forbidden" (.bool true)).after
      { shortcut with start := some 0, needsRedraw := true }) :=
    (Change.setAll_cons PropertyChange.new hstart _).trans rfl
  have hreachable := Change.after_setAll_reachable reachable_shortcut PropertyChange.new startAndForbid
  have hafter : (Change.setAll PropertyChange.new startAndForbid).after shortcut = _ := Edit.after_ok hset
  rw [hafter] at hreachable
  have hexecute := execute_batch (c := Change.setProperties startAndForbid) rfl rfl shortcut []
  rw [hset] at hexecute
  exact ⟨_, _, _, _, hexecute, hreachable, rfl, rfl, rfl, rfl, rfl⟩

end Graph

/-- Both batches stop, the one while it is done and the other while it is taken back. -/
theorem batch_stops_at_refusal_sample :
    (∃ e g', Command.execute (Change.setProperties Graph.forbidTwo, [Graph.shortcut]) =
        .error e (Change.setProperties Graph.forbidTwo, [g']) ∧
      ∃ made refused left, Graph.forbidTwo = made ++ refused :: left ∧ Change.setNew made Graph.shortcut = .ok () g' ∧
        Graph.setProperty refused.target refused.property refused.new g' = .error e g') ∧
    ∃ (c : Command Change) (g₁ g₂ : Graph) (e : Error), Command.revert (c, [g₁]) = .error e (c, [g₂]) ∧
      ∃ left refused made, Graph.startAndForbid = left ++ refused :: made ∧ Change.setOld made g₁ = .ok () g₂ ∧
        Graph.setProperty refused.target refused.property refused.old g₂ = .error e g₂ := by
  constructor
  · obtain ⟨e, g', hfails, -, -⟩ := Graph.execute_forbidTwo
    obtain ⟨made, refused, left, g'', hchanges, hmade, hrefused, -, hlayers⟩ :=
      (batch_stops_at_refusal Graph.reachable_shortcut [] _ rfl).1 rfl hfails
    cases hlayers
    exact ⟨e, g', hfails, made, refused, left, hchanges, hmade, hrefused⟩
  · obtain ⟨c, g₁, e, g₂, -, hg₁, hc, hdone, hfails, -, -⟩ := Graph.revert_startAndForbid
    obtain ⟨left, refused, made, g'', hchanges, hmade, hrefused, -, hlayers⟩ :=
      (batch_stops_at_refusal hg₁ [] _ hc).2 hdone hfails
    cases hlayers
    exact ⟨c, g₁, g₂, e, hfails, left, refused, made, hchanges, hmade, hrefused⟩

/-- A batch is not made entirely or not at all, neither when it is done nor when it is taken back. -/
theorem batch_made_in_part :
    ¬ (∀ (g : Graph) (below layers : Layers) (c c' : Command Change) (changes : List PropertyChange) (e : Error),
        g.Reachable → c.body = .properties changes → c.done = false →
          Command.execute (c, g :: below) = .error e (c', layers) → layers = g :: below) ∧
      ¬ (∀ (g : Graph) (below layers : Layers) (c c' : Command Change) (changes : List PropertyChange) (e : Error),
        g.Reachable → c.body = .properties changes → c.done = true →
          Command.revert (c, g :: below) = .error e (c', layers) → layers = g :: below) := by
  constructor
  · intro hwhole
    obtain ⟨e, g', hfails, hbefore, hafter⟩ := Graph.execute_forbidTwo
    cases hwhole _ _ _ _ _ _ e Graph.reachable_shortcut rfl rfl hfails
    cases hbefore.symm.trans hafter
  · intro hwhole
    obtain ⟨c, g₁, e, g₂, -, hg₁, hc, hdone, hfails, hbefore, hafter⟩ := Graph.revert_startAndForbid
    cases hwhole _ _ _ _ _ _ e hg₁ hc hdone hfails
    cases hbefore.symm.trans hafter

end SearchLab
