import Mathlib.Data.Set.Finite.Basic
import Mathlib.Logic.Relation
import SearchLab.Game.Table

/-!
# Games with a given set of positions

What is proved of a search is proved relative to a set of positions that its rules do not leave. `Leads` is the move
graph of a game: positions with the same id are one position, and no move leads on from where the game ends.

* `acyclic_of_rank` — a rank that every move lowers excludes cycles;
* `Falters` — rules that fail where others do not, and never say anything else;
* `Table.within` — the rules of a table do not leave its places.
-/

namespace SearchLab.Game

variable {π υ : Type}

/-- The rules do not leave a set of positions. -/
structure Rules.Within (rules : Rules π) (G : Set π) : Prop where
  initial : ∀ {p}, rules.initial = .ok p → p ∈ G
  branches : ∀ {p bs}, p ∈ G → rules.branches p = .ok bs → ∀ b ∈ bs, b.2 ∈ G

/-- A move leads from one id to another. -/
inductive Rules.Leads [Position π υ] (rules : Rules π) (G : Set π) : String → String → Prop
  | move {p : π} {branches : List (Action × π)} {branch : Action × π} (hp : p ∈ G)
      (hopen : Position.isTerminal p = false) (hbranches : rules.branches p = .ok branches) (hbranch : branch ∈ branches) :
      Rules.Leads rules G (Position.id p) (Position.id branch.2)

/-- No line of moves leads back to where it started. -/
def Rules.Acyclic [Position π υ] (rules : Rules π) (G : Set π) : Prop :=
  ∀ id, ¬ Relation.TransGen (rules.Leads G) id id

/-- A game is without cycles where each move leads to a lower rank. -/
theorem Rules.acyclic_of_rank [Position π υ] {rules : Rules π} {G : Set π} (rank : String → Nat)
    (h : ∀ a b, rules.Leads G a b → rank b < rank a) : rules.Acyclic G := by
  intro id hcycle
  have hlower : ∀ a b, Relation.TransGen (rules.Leads G) a b → rank b < rank a := by
    intro a b hab
    induction hab with
    | single hmove => exact h _ _ hmove
    | tail _ hmove ih => exact Nat.lt_trans (h _ _ hmove) ih
  exact Nat.lt_irrefl _ (hlower id id hcycle)

/-- A position can be reached from another one through positions at which the game goes on. -/
inductive Rules.Reaches [Position π υ] (rules : Rules π) (p : π) : π → Prop
  | start : Rules.Reaches rules p p
  | move {q : π} {branches : List (Action × π)} {branch : Action × π} (hq : Rules.Reaches rules p q)
      (hopen : Position.isTerminal q = false) (hbranches : rules.branches q = .ok branches) (hbranch : branch ∈ branches) :
      Rules.Reaches rules p branch.2

theorem Rules.Within.reaches [Position π υ] {rules : Rules π} {G : Set π} (h : rules.Within G) {p q : π} (hp : p ∈ G)
    (hq : rules.Reaches p q) : q ∈ G := by
  induction hq with
  | start => exact hp
  | move _ _ hbranches hbranch ih => exact h.branches ih hbranches _ hbranch

/-- Positions with the same id are the same position: the game ends at all of them or at none, and they lead to the same
positions. -/
structure Rules.Identified [Position π υ] (rules : Rules π) (G : Set π) : Prop where
  isTerminal : ∀ {p q}, p ∈ G → q ∈ G → Position.id p = Position.id q → Position.isTerminal p = Position.isTerminal q
  branches : ∀ {p q bs bs'}, p ∈ G → q ∈ G → Position.id p = Position.id q → rules.branches p = .ok bs →
    rules.branches q = .ok bs' → ∀ b ∈ bs, ∃ b' ∈ bs', Position.id b'.2 = Position.id b.2

/-! ## Rules that fail at times -/

/-- Rules that say what others say, or else fail. -/
structure Rules.Falters (rules' rules : Rules π) : Prop where
  actions : ∀ p, rules'.actions p = rules.actions p ∨ ∃ err, rules'.actions p = .error err
  result : ∀ p action, rules'.result p action = rules.result p action ∨ ∃ err, rules'.result p action = .error err

namespace Rules.Falters

variable {rules rules' : Rules π}

theorem refl (rules : Rules π) : rules.Falters rules := ⟨fun _ => .inl rfl, fun _ _ => .inl rfl⟩

theorem results (h : rules'.Falters rules) (p : π) (actions : List Action) :
    rules'.results p actions = rules.results p actions ∨ ∃ err, rules'.results p actions = .error err := by
  induction actions with
  | nil => exact .inl rfl
  | cons action rest ih =>
      rcases h.result p action with hnext | ⟨err, hfails⟩
      · rw [Rules.results, Rules.results, hnext]
        cases rules.result p action with
        | error err => exact .inl rfl
        | ok next =>
            rcases ih with hrest | ⟨err, hfails⟩
            · exact .inl (by simp only [hrest])
            · exact .inr ⟨err, by simp only [hfails]⟩
      · exact .inr ⟨err, by rw [Rules.results, hfails]⟩

/-- The branches of a position are those that the other rules give, or there are none to be had. -/
theorem branches (h : rules'.Falters rules) (p : π) :
    rules'.branches p = rules.branches p ∨ ∃ err, rules'.branches p = .error err := by
  rcases h.actions p with hactions | ⟨err, hfails⟩
  · rw [Rules.branches, Rules.branches, hactions]
    cases rules.actions p with
    | error err => exact .inl rfl
    | ok actions => exact h.results p actions
  · exact .inr ⟨err, by rw [Rules.branches, hfails]⟩

end Rules.Falters

/-! ## Tables -/

namespace Table

theorem mem_places {t : Table} {key : String} {p : Place} (h : t.place key = .ok p) : p ∈ t.places := by
  unfold place at h
  split at h
  · rename_i hfind
    cases h
    exact List.mem_of_find?_eq_some hfind
  · cases h

theorem mem_places_of_results {t : Table} {broken : Option String} {p : Place} {actions : List Action}
    {branches : List (Action × Place)} (h : (t.rules broken).results p actions = .ok branches) :
    ∀ b ∈ branches, b.2 ∈ t.places := by
  induction actions generalizing branches with
  | nil =>
      cases h
      simp
  | cons action rest ih =>
      simp only [Rules.results] at h
      split at h
      · cases h
      · rename_i next hnext
        split at h
        · cases h
        · rename_i hrest
          cases h
          have hplace : next ∈ t.places := by
            simp only [rules, target] at hnext
            split at hnext
            · exact mem_places hnext
            · cases hnext
          intro b hb
          rcases List.mem_cons.mp hb with rfl | hb
          · exact hplace
          · exact ih hrest b hb

/-- A table does not lead out of its places. -/
theorem within (t : Table) (broken : Option String) : (t.rules broken).Within {p | p ∈ t.places} where
  initial {p} h := by
    simp only [rules] at h
    split at h
    · exact mem_places h
    · cases h
  branches {p bs} _ h := by
    unfold Rules.branches at h
    split at h
    · cases h
    · exact mem_places_of_results h

/-- The ids that moves of a table lead to are those of its places. -/
theorem finite_ids (t : Table) (broken : Option String) (origin : String) :
    {id | Relation.ReflTransGen ((t.rules broken).Leads {p | p ∈ t.places}) origin id}.Finite := by
  have hfinite : (insert origin (Place.id '' {p | p ∈ t.places})).Finite := ((List.finite_toSet t.places).image _).insert _
  refine hfinite.subset fun id hid => ?_
  rcases Relation.ReflTransGen.cases_tail hid with rfl | ⟨_, _, hmove⟩
  · exact Set.mem_insert _ _
  · obtain ⟨hp, _, hbranches, hbranch⟩ := hmove
    exact Set.mem_insert_of_mem _ ⟨_, (t.within broken).branches hp hbranches _ hbranch, rfl⟩

/-- A table that is broken fails where it is asked for actions. -/
theorem falters (t : Table) (broken : Option String) : (t.rules broken).Falters (t.rules none) where
  actions p := by
    cases broken with
    | none => exact .inl rfl
    | some message => exact .inr ⟨_, rfl⟩
  result _ _ := .inl rfl

/-- A game of two moves each of which can be met with the same reply. -/
def twoPly : Table where
  initial := some "start"
  places :=
    let move (key : String) : Action := [("to", .text key)]
    [ ⟨"start", "start", some .max, false, 0.0, none, [move "left", move "right"]⟩,
      ⟨"left", "left", some .min, false, 0.0, some 0.5, [move "lost", move "even"]⟩,
      ⟨"right", "right", some .min, false, 0.0, none, [move "even"]⟩,
      ⟨"lost", "lost", none, true, -1.0, none, []⟩,
      ⟨"even", "even", none, true, 0.0, none, []⟩ ]

/-- How many moves are left, at most. -/
def twoPly.rank (id : String) : Nat := if id = "start" then 2 else if id = "left" ∨ id = "right" then 1 else 0

theorem twoPly_lowers : ∀ p ∈ twoPly.places, ∃ bs, (twoPly.rules none).branches p = .ok bs ∧
    ∀ b ∈ bs, twoPly.rank b.2.id < twoPly.rank p.id := by
  intro p hp
  simp only [twoPly, List.mem_cons, List.not_mem_nil, or_false] at hp
  rcases hp with rfl | rfl | rfl | rfl | rfl
  all_goals exact ⟨_, rfl, by simp [twoPly.rank]⟩

/-- The rules of the table do not fail. -/
theorem twoPly_answers : ∀ p ∈ twoPly.places, ∃ bs, (twoPly.rules none).branches p = .ok bs := by
  intro p hp
  obtain ⟨bs, hbs, _⟩ := twoPly_lowers p hp
  exact ⟨bs, hbs⟩

theorem twoPly_acyclic : (twoPly.rules none).Acyclic {p | p ∈ twoPly.places} := by
  refine Rules.acyclic_of_rank twoPly.rank ?_
  rintro _ _ ⟨hp, _, hbranches, hbranch⟩
  obtain ⟨bs, hbs, hlower⟩ := twoPly_lowers _ hp
  obtain rfl := Except.ok.inj (hbs.symm.trans hbranches)
  exact hlower _ hbranch

end Table

end SearchLab.Game
