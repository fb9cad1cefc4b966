import SearchLab.Replay.Recorder

/-!
# A replay

A context holds the layers of a replay and the log of its commands. Loading steps puts their commands into the
log and leaves the layers as they are, so that the replay can go through them one by one.
-/

namespace SearchLab

/-- Layers with the log of the commands that change them. -/
structure Context where
  layers : Layers := []
  log : Log Change := {}

namespace Context

/-- The context of one graph, or of none. -/
def ofGraph (g : Option Graph) : Context := { layers := g.toList }

/-- The graph that is shown. -/
def graph? (c : Context) : Option Graph := c.layers.head?

/-- Lays a graph on top. -/
def push (c : Context) (g : Graph) : Context := { c with layers := g :: c.layers }

/-- Takes the top graph away. -/
def pop (c : Context) : Option Graph × Context := (c.layers.head?, { c with layers := c.layers.tail })

/-- Replaces the top graph, or lays the first one down. -/
def update (c : Context) (g : Graph) : Context := { c with layers := g :: c.layers.tail }

/-- An edit of the layers. -/
def onLayers {α : Type} (edit : Edit Layers α) : Edit Context α :=
  edit.onPart Context.layers fun layers c => { c with layers }

/-- An edit of the log. -/
def onLog {α : Type} (edit : Edit (Log Change) α) : Edit Context α :=
  edit.onPart Context.log fun log c => { c with log }

/-- Brings the layers to where the log stands. -/
def catchUp : Edit Context (List Touched) := fun c =>
  match Log.catchUp (c.log, c.layers) with
  | .ok touched (log, layers) => .ok touched { layers, log }
  | .error e (log, layers) => .error e { layers, log }

/-- Puts the commands of some steps into the log, goes back to where the layers are, and says how many there
were. -/
def loadSteps (steps : List Step) : Edit Context Nat := do
  let commands := steps.filterMap Step.command
  modify fun c => { c with log := commands.foldl Log.add c.log }
  let c ← get
  onLog (Log.seek c.log.executed)
  return commands.length

end Context

end SearchLab
