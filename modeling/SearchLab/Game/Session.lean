import SearchLab.Game.Configuration
import SearchLab.Game.Deepening
import SearchLab.Game.Evaluation

/-!
# Searching tick by tick

A session searches a game with minimax, a tick at a time. A tick first expands positions, then evaluates the tree,
each within a budget and a slice of time, and in the end highlights the line of best moves. Both activities go on
in the next tick where this one stopped. When the tree has grown, the evaluation and all that it has found start
anew.

The time of a slice is counted in steps: it is up after so many of them.
-/

namespace SearchLab.Game

/-! ## Slices -/

/-- How a slice ended. -/
inductive Ending where
  /-- Nothing is left to be done. -/
  | done
  /-- The budget is used up. -/
  | spent
  /-- The time is up. -/
  | timeUp
  /-- A step failed. -/
  | failed (e : Error)
deriving DecidableEq, Repr

/-- Whether nothing is left to be done. -/
def Ending.isDone : Ending → Bool
  | done => true
  | _ => false

/-- What a slice has done, how it ended, and the state behind it. -/
structure Slice (σ α : Type) where
  results : List α
  ending : Ending
  state : σ

/-- Takes steps until nothing is left to be done, the budget is used up, a step fails, or the time is up. -/
def Slice.run {σ α : Type} (isSpent : σ → Bool) (step : Edit σ (Option α)) : (time : Nat) → σ → Slice σ α
  | 0, s => ⟨[], .timeUp, s⟩
  | time + 1, s =>
    if isSpent s then ⟨[], .spent, s⟩
    else
      match step s with
      | .error e s => ⟨[], .failed e, s⟩
      | .ok none s => ⟨[], .done, s⟩
      | .ok (some a) s =>
        let rest := Slice.run isSpent step time s
        { rest with results := a :: rest.results }

/-! ## Reports -/

/-- How much a notice matters. -/
inductive Level where
  | info
  | success
  | error
deriving DecidableEq, Repr

/-- The word for a level. -/
def Level.name : Level → String
  | info => "info"
  | success => "success"
  | error => "error"

/-- A message to a person. -/
structure Notice where
  level : Level
  message : String
deriving DecidableEq, Repr

/-- What a tick has done. -/
structure Report where
  /-- The positions that were expanded. -/
  expansions : Nat
  /-- The positions whose worth was found. -/
  steps : Nat
  grown : Bool
  expansionDone : Bool
  evaluationDone : Bool
  notices : List Notice
  /-- The line of best moves. -/
  line : List Move

/-! ## Sessions -/

/-- A search on its way. -/
structure Session (π υ : Type) where
  engine : Engine π υ
  /-- The depth that the expansion of a root starts with. -/
  depth : Nat
  configuration : Configuration
  root : Nat
  expansion : Option Deepening := none
  evaluation : Option (Evaluation υ) := none
  /-- It was reported that the expansion from this root is complete. -/
  announced : Bool := false

namespace Session

variable {π υ : Type} [Position π υ] [Score υ]

omit [Position π υ] [Score υ] in
/-- The session of an engine before its first tick. -/
def ofEngine (engine : Engine π υ) (depth : Nat) (configuration : Configuration) : Session π υ :=
  { engine, depth, configuration, root := engine.tree.root }

omit [Score υ] in
/-- Goes on from another position. What was begun from the old root is dropped, unless it is the same. -/
def setRoot (p : π) : Edit (Session π υ) Unit := fun s =>
  match Tree.setRoot p s.engine.tree with
  | .error e tree => .error e { s with engine := { s.engine with tree } }
  | .ok root tree =>
    let s := { s with engine := { s.engine with tree } }
    if root = s.root then .ok () s
    else .ok () { s with root, expansion := none, evaluation := none, announced := false }

omit [Score υ] in
/-- The slice of a tick that expands positions. -/
def expansionSlice (rules : Rules π) (time : Nat) (s : Session π υ) : Slice (Deepening × Engine π υ) Expansion :=
  let deepening := s.expansion.getD (Deepening.ofRoot s.root s.depth)
  Slice.run (fun (_, e) => e.expansions.isExhausted) (Deepening.step rules) time (deepening, s.engine)

/-- A step of an evaluation, with the unit that it costs. -/
def evaluationStep : Edit (Evaluation υ × Engine π υ) (Option (Verdict υ)) := fun s =>
  match Evaluation.step s with
  | .ok (some verdict) (s, e) => .ok (some verdict) (s, { e with steps := e.steps.spent })
  | other => other

/-- The slice of a tick that evaluates the tree. -/
def evaluationSlice (time : Nat) (s : Session π υ) : Slice (Evaluation υ × Engine π υ) (Verdict υ) :=
  let evaluation := s.evaluation.getD (Evaluation.ofRoot s.root)
  Slice.run (fun (_, e) => e.steps.isExhausted) evaluationStep time (evaluation, s.engine)

/-- What is said about the end of a slice. -/
def endNotices : Ending → List Notice
  | .timeUp => [⟨.info, "Timeout reached"⟩]
  | .failed e => [⟨.error, e.message⟩]
  | .done | .spent => []

/-- What is said about the end of an expansion; that it is complete is said once. -/
def expansionNotices (announced : Bool) : Ending → List Notice
  | .done => if announced then [] else [⟨.success, "Expansion complete"⟩]
  | other => endNotices other

omit [Position π υ] [Score υ] in
/-- The session at the start of a tick: the budgets are full. -/
def refilled (s : Session π υ) : Session π υ :=
  { s with engine := { s.engine with
      expansions := s.configuration.maxExpansions, steps := s.configuration.maxSteps } }

omit [Position π υ] [Score υ] in
/-- The session after the tree has been expanded: where it has grown, the evaluation starts anew. -/
def settled (s : Session π υ) : Bool × Session π υ :=
  let (grown, engine) := s.engine.takeGrown
  if grown then
    (true, { s with engine := { engine with tree := engine.tree.resetUtilities }, evaluation := none })
  else (false, { s with engine })

/-- One tick, with the time of each of its slices. -/
def tick (rules : Rules π) (expansionTime evaluationTime : Nat) (s : Session π υ) : Report × Session π υ :=
  let s := s.refilled
  let expanding := s.expansionSlice rules expansionTime
  let notices := expansionNotices s.announced expanding.ending
  let s := { s with
    expansion := some expanding.state.1
    engine := expanding.state.2
    announced := s.announced || expanding.ending.isDone }
  let (grown, s) := s.settled
  let evaluating := s.evaluationSlice evaluationTime
  let tree := evaluating.state.2.tree
  let line := tree.bestLine s.root
  let report : Report :=
    { expansions := expanding.results.length
      steps := evaluating.results.length
      grown
      expansionDone := expanding.ending.isDone
      evaluationDone := evaluating.ending.isDone
      notices := notices ++ endNotices evaluating.ending
      line }
  (report, { s with
    evaluation := some evaluating.state.1
    engine := { evaluating.state.2 with tree := tree.highlight s.root line } })

end Session

end SearchLab.Game
