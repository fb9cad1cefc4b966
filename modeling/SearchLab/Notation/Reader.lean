import SearchLab.Notation.FreeForm
import SearchLab.Notation.Grid

/-!
# Graphs as text

`read` makes a graph of a document, by the grammar that its header names, and `write` a document of a graph.
-/

namespace SearchLab.Notation

/-- The graph that a document describes. -/
def read (text : String) : Except Error Graph :=
  match lines text with
  | [] => refuse 1 0 "The graph expression must have at least 1 line indicating the graph type" "GENERIC"
  | header :: body =>
    match Header.ofLine header with
    | .error e => .error e
    | .ok .generic => FreeForm.read body
    | .ok (.grid width height) => Grid.read header.number width height body

/-- The document of a graph. -/
def write (g : Graph) : String :=
  if g.isGrid then Grid.write g else FreeForm.write g

end SearchLab.Notation
