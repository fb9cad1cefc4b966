import SearchLab.Decimal.Reader
import SearchLab.Notation.Statement

/-!
# Documents

A document is a text of lines. Lines are trimmed, blank ones passed over, and the first one left is the header:
`GENERIC`, or `GRID` with a width and a height.
-/

namespace SearchLab.Notation

/-- A text cut at every line feed. -/
def splitLines (cs : List Char) : List (List Char) := cs.splitOn '\n'

/-- The lines of a text that are not blank, trimmed and numbered from 1 in the whole text. -/
def lines (text : String) : List Line :=
  ((splitLines text.toList).zipIdx 1).filterMap fun (cs, number) =>
    let trimmed := Text.trim cs
    if trimmed.isEmpty then none else some ⟨number, trimmed⟩

/-- What a document describes. -/
inductive Header where
  | generic
  | grid (width height : Nat)
deriving DecidableEq, Repr

/-- The words that a header may start with. -/
def graphTypes : List String := ["GRID", "GENERIC"]

/-- The refusal of a grid without two sizes. -/
def badDimensions {α : Type} (line : Nat) : Except Error α :=
  refuse line 6
    "The GRID graph type requires two positive dimensions expressed in the format <WIDTH>x<HEIGHT> following the GRID specifier"
    "GRID 10x8"

/-- The signs that stand between width and height. -/
def isTimes (c : Char) : Bool := c = 'x' || c = 'X' || c = '×'

/-- A size of a grid. -/
def dimension? (cs : List Char) : Option Nat :=
  match Decimal.natural? (Text.trim cs) with
  | some 0 => none
  | size => size

/-- Reads a header. -/
def Header.ofLine (line : Line) : Except Error Header :=
  let kind := String.ofList (line.text.takeWhile fun c => !Text.isBlank c)
  let rest := Text.trim (line.text.dropWhile fun c => !Text.isBlank c)
  if kind = "GENERIC" then .ok .generic
  else if kind = "GRID" then
    match rest.splitOnP isTimes with
    | [width, height] =>
      match dimension? width, dimension? height with
      | some width, some height => .ok (.grid width height)
      | _, _ => badDimensions line.number
    | _ => badDimensions line.number
  else
    let known := ", ".intercalate graphTypes
    refuse line.number 1
      s!"Unable to find graph type \"{String.ofList line.text}\", currently supported graph types are {known}"

end SearchLab.Notation
