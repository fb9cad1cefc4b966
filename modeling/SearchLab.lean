import SearchLab.Text.Blank
import SearchLab.Decimal.Layout
import SearchLab.Decimal.Reader
import SearchLab.Json.Value
import SearchLab.Json.Printer
import SearchLab.Json.Reader
import SearchLab.Error
import SearchLab.Bag
import SearchLab.Bag.Merge
import SearchLab.Property
import SearchLab.Queue
import SearchLab.Capability
import SearchLab.History
import SearchLab.Graph.Cost
import SearchLab.Graph.Diagonal
import SearchLab.Graph.Entity
import SearchLab.Graph.Adjacency
import SearchLab.Graph.Basic
import SearchLab.Graph.Edits
import SearchLab.Graph.Lattice
import SearchLab.Graph.Inspect
import SearchLab.Graph.Paths
import SearchLab.Notation.Argument
import SearchLab.Notation.Statement
import SearchLab.Notation.Payload
import SearchLab.Notation.Document
import SearchLab.Notation.FreeForm
import SearchLab.Notation.Grid
import SearchLab.Notation.Reader
import SearchLab.Replay.Change
import SearchLab.Replay.Recorder
import SearchLab.Replay.Context
import SearchLab.Graph.Reach
import SearchLab.Replay.BreadthFirst
import SearchLab.Text.Settings
import SearchLab.Game.Player
import SearchLab.Game.Budget
import SearchLab.Game.Configuration
import SearchLab.Game.Rules
import SearchLab.Game.Tree
import SearchLab.Game.Engine
import SearchLab.Game.Deepening
import SearchLab.Game.Evaluation
import SearchLab.Game.Inspect
import SearchLab.Game.Setup
import SearchLab.Game.Session
import SearchLab.Game.Table
import SearchLab.Graph.Snapshot
import SearchLab.Game.Snapshot
import SearchLab.Proofs.Edit
import SearchLab.Proofs.History.Chain
import SearchLab.Proofs.History.Turns
import SearchLab.Proofs.History.CatchUp
import SearchLab.Proofs.Notation.Lines
import SearchLab.Proofs.Notation.Argument
import SearchLab.Proofs.Json.Flat
import SearchLab.Proofs.Notation.Statement
import SearchLab.Proofs.Graph.Arena
import SearchLab.Proofs.Graph.Operation
import SearchLab.Proofs.Notation.FreeForm
import SearchLab.Proofs.Graph.Index
import SearchLab.Proofs.Graph.Reach
import SearchLab.Proofs.Graph.Ledger
import SearchLab.Proofs.Decimal
import SearchLab.Proofs.Double
import SearchLab.Proofs.Graph.Diagonal
import SearchLab.Proofs.Graph.Lattice
import SearchLab.Proofs.Graph.Grid
import SearchLab.Proofs.Graph.Upkeep
import SearchLab.Proofs.Graph.Resize
import SearchLab.Proofs.Notation.Payload
import SearchLab.Proofs.Notation.GridLines
import SearchLab.Proofs.Notation.Implied
import SearchLab.Proofs.Notation.GridReader
import SearchLab.Proofs.Notation.GridWriter
import SearchLab.Proofs.Notation.Grid
import SearchLab.Proofs.Game.Rules
import SearchLab.Proofs.Game.Tree
import SearchLab.Proofs.Game.Engine
import SearchLab.Proofs.Game.Score
import SearchLab.Proofs.Game.Worth
import SearchLab.Proofs.Game.Evaluation
import SearchLab.Proofs.Game.Slice
import SearchLab.Proofs.Game.Session
import SearchLab.Proofs.Game.Deepening
import SearchLab.Proofs.Game.Completeness
import SearchLab.Proofs.Game.Twins
import SearchLab.Proofs.Game.Mirror
import SearchLab.Proofs.Game.Moves
import SearchLab.Proofs.Game.Slicing
import SearchLab.Proofs.Game.Retry
import SearchLab.Proofs.Game.PathCount
import SearchLab.Proofs.Game.Lasting
import SearchLab.Proofs.Game.Gain
import SearchLab.Proofs.Game.Leaves
import SearchLab.Proofs.Game.Orders
import SearchLab.Proofs.Game.Turns
import SearchLab.Proofs.Game.Runs
import SearchLab.Proofs.Game.Frames
import SearchLab.Proofs.Game.Settling
import SearchLab.Proofs.Game.Verdicts
import SearchLab.Proofs.Game.Records
import SearchLab.Proofs.Game.BestLine
import SearchLab.Proofs.Game.Highlight
import SearchLab.Proofs.Game.Roots
import SearchLab.Proofs.Replay.Look
import SearchLab.Proofs.Replay.Seek
import SearchLab.Proofs.Replay.Recording
import SearchLab.Proofs.Replay.Addresses
import SearchLab.Proofs.Replay.Fidelity
import SearchLab.Proofs.Double.Rounding
import SearchLab.Proofs.Json.Readable
import SearchLab.Proofs.Notation.Accepted
import SearchLab.Proofs.Notation.Again
import SearchLab.Proofs.Decimal.Shortest
import SearchLab.Proofs.Decimal.Reread
import SearchLab.Proofs.Notation.Reread
import SearchLab.Proofs.Notation.Tidy
import SearchLab.Proofs.Notation.Stable
import SearchLab.Proofs.Notation.Lasting
import SearchLab.Proofs.History.Upheld
import SearchLab.Proofs.Replay.Unseen
import SearchLab.Proofs.Graph.Reachable
import SearchLab.Proofs.Graph.Tiling
import SearchLab.Proofs.Graph.Settings
import SearchLab.Proofs.Graph.Refusal
import SearchLab.Proofs.Graph.Restoring
import SearchLab.Proofs.Graph.Settled
import SearchLab.Proofs.Game.Settings
import SearchLab.Proofs.Graph.Exact
import SearchLab.Proofs.Graph.Search
import SearchLab.Proofs.Graph.Distances
import SearchLab.Proofs.Double.Counting
import SearchLab.Proofs.Graph.Levels
import SearchLab.Proofs.Graph.Count
import SearchLab.Proofs.Replay.BreadthFirst
import SearchLab.Proofs.Replay.Batch
import SearchLab.Proofs.Replay.Restore
import SearchLab.Proofs.Replay.Toggle
import SearchLab.Proofs.Graph.Crossing
import SearchLab.Proofs.Graph.Estimate
import SearchLab.Proofs.Graph.Descent
import SearchLab.Proofs.Graph.GridEstimate
import SearchLab.Proofs.Bag.Merge
import SearchLab.Proofs.Notation.Named
import SearchLab.Proofs.Notation.Columns
import SearchLab.Proofs.Graph.Redraw
import SearchLab.Proofs.Graph.FreshId
