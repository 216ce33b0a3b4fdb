import DiagramTour.CommandLine.Answer
import DiagramTour.CommandLine.Arguments
import DiagramTour.Compile
import DiagramTour.Diagnostic
import DiagramTour.Document.Basic
import DiagramTour.Document.Json
import DiagramTour.Document.Load
import DiagramTour.Json.Basic
import DiagramTour.Json.Draft
import DiagramTour.Json.Field
import DiagramTour.Json.Places
import DiagramTour.Json.Writer
import DiagramTour.Lower.Fold
import DiagramTour.Lower.Program
import DiagramTour.Main
import DiagramTour.Number.Power
import DiagramTour.Number.Reading
import DiagramTour.Number.Remainder
import DiagramTour.Number.Shortest
import DiagramTour.Playback.Bus
import DiagramTour.Playback.Config
import DiagramTour.Playback.Elements
import DiagramTour.Playback.Event
import DiagramTour.Playback.Failure
import DiagramTour.Playback.Handler
import DiagramTour.Playback.Host
import DiagramTour.Playback.Notice
import DiagramTour.Playback.Rehearsal
import DiagramTour.Playback.Run
import DiagramTour.Playback.Script
import DiagramTour.Playback.Step
import DiagramTour.Playback.World
import DiagramTour.Program.Audit
import DiagramTour.Program.Basic
import DiagramTour.Program.Cursor
import DiagramTour.Program.Expr
import DiagramTour.Program.Json
import DiagramTour.Program.OfJson
import DiagramTour.Program.Parse.Expr
import DiagramTour.Program.Parse.Item
import DiagramTour.Program.Parse.Step
import DiagramTour.Program.Parse.Target
import DiagramTour.Program.Printer
import DiagramTour.Program.Target
import DiagramTour.Proofs.Document.Loaded
import DiagramTour.Proofs.Document.RoundTrip
import DiagramTour.Proofs.Document.Targets
import DiagramTour.Proofs.Json.Arranged
import DiagramTour.Proofs.Json.Reading
import DiagramTour.Proofs.Json.Settled
import DiagramTour.Proofs.Lower.Arguments
import DiagramTour.Proofs.Lower.Comparing
import DiagramTour.Proofs.Lower.Folding
import DiagramTour.Proofs.Lower.Ids
import DiagramTour.Proofs.Lower.Naming
import DiagramTour.Proofs.Lower.Numbering
import DiagramTour.Proofs.Lower.Order
import DiagramTour.Proofs.Lower.Priority
import DiagramTour.Proofs.Lower.Spans
import DiagramTour.Proofs.Lower.Specs
import DiagramTour.Proofs.Lower.Stops
import DiagramTour.Proofs.Number.Doubles
import DiagramTour.Proofs.Number.Rounding
import DiagramTour.Proofs.Playback.Abort
import DiagramTour.Proofs.Playback.Actions
import DiagramTour.Proofs.Playback.Batch
import DiagramTour.Proofs.Playback.Bounds
import DiagramTour.Proofs.Playback.Calls
import DiagramTour.Proofs.Playback.Chronicle
import DiagramTour.Proofs.Playback.Destruction
import DiagramTour.Proofs.Playback.Effect
import DiagramTour.Proofs.Playback.Nested
import DiagramTour.Proofs.Playback.Opening
import DiagramTour.Proofs.Playback.Parts
import DiagramTour.Proofs.Playback.Passing
import DiagramTour.Proofs.Playback.Rehearsal
import DiagramTour.Proofs.Playback.Released
import DiagramTour.Proofs.Playback.Rigging
import DiagramTour.Proofs.Playback.Schedule
import DiagramTour.Proofs.Playback.Serial
import DiagramTour.Proofs.Playback.Sharing
import DiagramTour.Proofs.Playback.Smooth
import DiagramTour.Proofs.Playback.Solo
import DiagramTour.Proofs.Playback.Stint
import DiagramTour.Proofs.Playback.Subscriptions
import DiagramTour.Proofs.Playback.Tasks
import DiagramTour.Proofs.Playback.Telling
import DiagramTour.Proofs.Playback.Timers
import DiagramTour.Proofs.Playback.Transition
import DiagramTour.Proofs.Playback.Turnover
import DiagramTour.Proofs.Playback.Vain
import DiagramTour.Proofs.Playback.View
import DiagramTour.Proofs.Playback.Way
import DiagramTour.Proofs.Program.Abreast
import DiagramTour.Proofs.Program.AbreastExpr
import DiagramTour.Proofs.Program.AbreastItem
import DiagramTour.Proofs.Program.AbreastStep
import DiagramTour.Proofs.Program.Behind
import DiagramTour.Proofs.Program.Clear
import DiagramTour.Proofs.Program.Decked
import DiagramTour.Proofs.Program.Extent
import DiagramTour.Proofs.Program.Heading
import DiagramTour.Proofs.Program.JsonForm
import DiagramTour.Proofs.Program.Laid
import DiagramTour.Proofs.Program.LaidExpr
import DiagramTour.Proofs.Program.LaidItem
import DiagramTour.Proofs.Program.LaidStep
import DiagramTour.Proofs.Program.LastToken
import DiagramTour.Proofs.Program.LetValue
import DiagramTour.Proofs.Program.Longer
import DiagramTour.Proofs.Program.LongerExpr
import DiagramTour.Proofs.Program.Nodes
import DiagramTour.Proofs.Program.Numerals
import DiagramTour.Proofs.Program.OneToken
import DiagramTour.Proofs.Program.OnlyErrors
import DiagramTour.Proofs.Program.Outset
import DiagramTour.Proofs.Program.Phrases
import DiagramTour.Proofs.Program.Precedence
import DiagramTour.Proofs.Program.PrintedExpr
import DiagramTour.Proofs.Program.Quote
import DiagramTour.Proofs.Program.RawDiagram
import DiagramTour.Proofs.Program.Reads
import DiagramTour.Proofs.Program.ReadsExpr
import DiagramTour.Proofs.Program.ReadsItem
import DiagramTour.Proofs.Program.ReadsPath
import DiagramTour.Proofs.Program.ReadsProgram
import DiagramTour.Proofs.Program.ReadsRule
import DiagramTour.Proofs.Program.ReadsStep
import DiagramTour.Proofs.Program.ReadsTarget
import DiagramTour.Proofs.Program.RoundTrip
import DiagramTour.Proofs.Program.Rounds
import DiagramTour.Proofs.Program.Settings
import DiagramTour.Proofs.Program.Signs
import DiagramTour.Proofs.Program.Standing
import DiagramTour.Proofs.Program.Targets
import DiagramTour.Proofs.Program.Total
import DiagramTour.Proofs.Program.UnknownBlocks
import DiagramTour.Proofs.Program.Verbatim
import DiagramTour.Proofs.Program.VerbatimBlock
import DiagramTour.Proofs.Program.Version
import DiagramTour.Proofs.Program.WellFormed
import DiagramTour.Proofs.Program.Yields
import DiagramTour.Proofs.Program.YieldsExpr
import DiagramTour.Proofs.Program.YieldsItem
import DiagramTour.Proofs.Program.YieldsProgram
import DiagramTour.Proofs.Program.YieldsStep
import DiagramTour.Proofs.Token.Cut
import DiagramTour.Proofs.Token.Fence
import DiagramTour.Proofs.Token.Image
import DiagramTour.Proofs.Token.Munch
import DiagramTour.Proofs.Token.Partition
import DiagramTour.Proofs.Token.RawBlock
import DiagramTour.Text.Blank
import DiagramTour.Text.Letter
import DiagramTour.Text.Position
import DiagramTour.Text.Ranges
import DiagramTour.Text.Visible
import DiagramTour.Token.Basic
import DiagramTour.Token.Json
import DiagramTour.Token.Scan
