import Cascade.SortedMap
import Cascade.Decimal.Shortest
import Cascade.Decimal.Layout
import Cascade.Text.Hidden
import Cascade.Text.Spelled
import Cascade.Json.Value
import Cascade.Json.Text
import Cascade.Json.Node
import Cascade.Json.Reader
import Cascade.Json.Decode
import Cascade.Json.Inspect
import Cascade.Category
import Cascade.Fault
import Cascade.Key
import Cascade.Gate
import Cascade.Level
import Cascade.State.Basic
import Cascade.Options
import Cascade.State.CallLog
import Cascade.State.Expectation
import Cascade.State.Operation
import Cascade.Handler.Program
import Cascade.Handler.Script
import Cascade.Handler.Basic
import Cascade.Tree.Instruction
import Cascade.Registry
import Cascade.Trace.Record
import Cascade.Trace.Logger
import Cascade.Trace.Collector
import Cascade.Trace.Subscriber
import Cascade.Settings
import Cascade.Tree.Declaration
import Cascade.Tree.Builder
import Cascade.Run.Event
import Cascade.Run.Exec
import Cascade.Run.Traversal
import Cascade.Run.Pipeline
import Cascade.Proofs.Law.Basic
import Cascade.Proofs.Law.Parts
import Cascade.Proofs.Law.Run
import Cascade.Proofs.Level.Split
import Cascade.Proofs.Level.Required
import Cascade.Proofs.FailedMark
import Cascade.Proofs.Replay
import Cascade.Proofs.Declared.Built
import Cascade.Proofs.Placement
import Cascade.Proofs.Quiet
import Cascade.Proofs.Recorded.Document
import Cascade.Proofs.Recorded.Path
import Cascade.Proofs.Likeness.Level
import Cascade.Proofs.Round
import Cascade.Proofs.Forest.Afresh
import Cascade.Proofs.Level.Dispatch
import Cascade.Proofs.Container.Redirected
import Cascade.Proofs.Container.Direct
import Cascade.Proofs.Raised.Reason
import Cascade.Proofs.Raised.Stopping
import Cascade.Proofs.Raised.Session
import Cascade.Proofs.Inlined.Declared
import Cascade.Proofs.Inlined.Run
import Cascade.Proofs.Leeway.Basic
import Cascade.Proofs.Leeway.Exec
import Cascade.Proofs.Leeway.Run
import Cascade.Proofs.Ranked
import Cascade.Proofs.Ways
import Cascade.Proofs.Opaque
import Cascade.Proofs.Traced.Records
import Cascade.Proofs.Traced.Levels
import Cascade.Proofs.Traced.Run
import Cascade.Proofs.Bracketed.Events
import Cascade.Proofs.Bracketed.Run
import Cascade.Proofs.Gates.Level
import Cascade.Proofs.Gates.Run
import Cascade.Proofs.Entries.Unneeded
import Cascade.Proofs.Entries.Run
import Cascade.Proofs.Reoptioned.Declared
import Cascade.Proofs.Reoptioned.Run
import Cascade.Proofs.History
import Cascade.Proofs.Law.Trees
import Cascade.Proofs.Performed
import Cascade.Proofs.Settled
import Cascade.Proofs.Continued.Conduct
import Cascade.Proofs.Continued.Run
import Cascade.Proofs.Flattened.Declared
import Cascade.Proofs.Flattened.Run
import Cascade.Proofs.Logged
import Cascade.Proofs.Symbolic
import Cascade.Proofs.Listed
import Cascade.Proofs.Registered
import Cascade.Proofs.Contents
import Cascade.Proofs.ReadBack.Parts
import Cascade.Proofs.ReadBack.Values
import Cascade.Proofs.ReadBack.Options
import Cascade.Proofs.Printable
import Cascade.Proofs.Traced.Lines
