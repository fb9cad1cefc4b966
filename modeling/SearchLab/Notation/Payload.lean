import SearchLab.Graph.Entity

/-!
# Data at the end of a line

What a node or an edge carries is written behind it as one object: its data, without the keys that only show
how far a search has come, and its style under `style`.
-/

namespace SearchLab.Notation

/-- Data without the keys of a search and without those in `skip`. -/
def lasting (data : Bag) (skip : List String := []) : Bag :=
  data.filter fun m => !Node.transientKeys.contains m.1 && !skip.contains m.1

/-- Data with a style folded in. -/
def withStyle (data style : Bag) : Bag :=
  if style.isEmpty then data else data.set "style" (.object style)

/-- The written form of data and style, if there is anything to write. -/
def payload? (data style : Bag) : Option String :=
  let whole := withStyle data style
  if whole.isEmpty then none else some whole.toText

/-- A line of words with data behind them. -/
def joinLine (words : List String) (payload : Option String) : String :=
  " ".intercalate (words ++ payload.toList)

end SearchLab.Notation
