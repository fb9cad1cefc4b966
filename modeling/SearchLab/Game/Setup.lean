import SearchLab.Game.Engine

/-!
# Accepting a game and a solver

The program of a game and that of a solver come from outside and are evaluated apart from each other. What each
hands over is held against its checklist before anything runs, and an error of either is tagged with the program
that it comes from.
-/

namespace SearchLab.Game

/-- What a program hands over, and the methods that it offers. -/
structure Offered (α : Type) where
  value : α
  offer : Offer

/-- The methods that a solver offers. -/
def solverChecklist : List Method := [⟨"getPlaySequence", 1⟩, ⟨"runExpansion", 1⟩, ⟨"runAlgorithm", 1⟩]

/-- An error that arose in a program from outside; one that is tagged already stays as it is. -/
def tag (fault : Fault) : Error → Error
  | .build fault detail => .build fault detail
  | e => .build fault e.message

/-- What a program computed, its errors tagged. -/
def tagged {α : Type} (fault : Fault) : Except Error α → Except Error α
  | .ok value => .ok value
  | .error e => .error (tag fault e)

/-- That a program offers what is asked of it. -/
def checkOffer (fault : Fault) (checklist : List Method) (offer : Offer) (owner : String) : Except Error Unit :=
  match refusal? checklist offer owner with
  | some detail => .error (.build fault detail)
  | none => .ok ()

/-- The engine of a game, provided that the game and its first position offer what is asked of them. -/
def acceptRules {π υ : Type} [Position π υ] (game : Except Error (Offered (Rules π))) (positionOffer : π → Offer) :
    Except Error (Engine π υ) := do
  let game ← tagged .rules game
  checkOffer .rules rulesChecklist game.offer "the Case class"
  let engine ← tagged .rules (Engine.ofRules game.value)
  match engine.tree.position? engine.tree.root with
  | some p =>
    checkOffer .rules positionChecklist (positionOffer p) "the Position class returned from getInitialPosition"
  | none => .ok ()
  return engine

/-- A solver, provided that it offers what is asked of it. -/
def acceptSolver {σ : Type} (solver : Except Error (Offered σ)) : Except Error σ := do
  let solver ← tagged .solver solver
  checkOffer .solver solverChecklist solver.offer "the Solution class"
  return solver.value

/-- The engine of a game and a solver for it. The game is looked at first. -/
def accept {π υ σ : Type} [Position π υ] (game : Except Error (Offered (Rules π))) (positionOffer : π → Offer)
    (solver : Except Error (Offered σ)) : Except Error (Engine π υ × σ) := do
  let engine ← acceptRules game positionOffer
  let solver ← acceptSolver solver
  return (engine, solver)

end SearchLab.Game
