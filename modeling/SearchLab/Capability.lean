/-!
# What a program from outside offers

A program that is handed in answers to methods, each with a number of parameters. A checklist names the methods
that its role asks for; `firstGap?` finds the first one that is missing or takes another number of parameters,
and `refusal?` puts that into words.
-/

namespace SearchLab

/-- A method with its number of parameters. -/
structure Method where
  name : String
  arity : Nat
deriving DecidableEq, Repr

/-- What a program offers: the number of parameters of each of its methods. -/
abbrev Offer : Type := String → Option Nat

/-- What a table of methods offers. An entry further back replaces an earlier one of its name. -/
def Offer.ofTable (table : List Method) : Offer := fun name =>
  (table.reverse.find? (fun m => m.name = name)).map Method.arity

/-- The number of parameters that a checklist asks of a method. -/
def arityIn (checklist : List Method) : Offer := fun name =>
  (checklist.find? (fun m => m.name = name)).map Method.arity

/-- The first method of a checklist that an offer does not meet. -/
def firstGap? (checklist : List Method) (offer : Offer) : Option Method :=
  checklist.find? (fun m => offer m.name != some m.arity)

/-- Why an offer does not meet a checklist; `owner` names the role. -/
def refusal? (checklist : List Method) (offer : Offer) (owner : String) : Option String :=
  (firstGap? checklist offer).map fun m =>
    let plural := if m.arity = 1 then "" else "s"
    s!"{m.name} method is not defined in {owner} or has the wrong number of arguments, it should expect {m.arity} argument{plural}."

/-- Nothing is refused exactly when every method of the checklist is offered with its number of parameters. -/
theorem refusal?_eq_none_iff (checklist : List Method) (offer : Offer) (owner : String) :
    refusal? checklist offer owner = none ↔ ∀ m ∈ checklist, offer m.name = some m.arity := by
  simp [refusal?, firstGap?]

end SearchLab
