import QueueScript.Argument
import QueueScript.Command.Builtin
import QueueScript.Command.Compiled
import QueueScript.Command.Handler
import QueueScript.Command.Info
import QueueScript.Config
import QueueScript.Decimal.Binary
import QueueScript.Decimal.Shortest
import QueueScript.Diagnostics
import QueueScript.Duration
import QueueScript.Engine.Action
import QueueScript.Engine.Background
import QueueScript.Engine.Commands.Basic
import QueueScript.Engine.Commands.Condition
import QueueScript.Engine.Commands.Definitions
import QueueScript.Engine.Commands.Dispatch
import QueueScript.Engine.Commands.Files
import QueueScript.Engine.Commands.Host
import QueueScript.Engine.Commands.Loop
import QueueScript.Engine.Commands.Output
import QueueScript.Engine.Commands.Pacing
import QueueScript.Engine.Commands.Web
import QueueScript.Engine.Drive
import QueueScript.Engine.Entries
import QueueScript.Engine.Executor
import QueueScript.Engine.Heartbeat
import QueueScript.Engine.Host
import QueueScript.Engine.Queues
import QueueScript.Engine.Scripts
import QueueScript.Engine.State
import QueueScript.Engine.Tags
import QueueScript.Failure
import QueueScript.FileSystem
import QueueScript.Json5.Cursor
import QueueScript.Json5.Lexeme
import QueueScript.Json5.Reader
import QueueScript.Keyed
import QueueScript.Number
import QueueScript.Path
import QueueScript.Proofs.Completion
import QueueScript.Proofs.Confinement
import QueueScript.Proofs.Discipline.Basic
import QueueScript.Proofs.Discipline.Blocks
import QueueScript.Proofs.Discipline.Commands
import QueueScript.Proofs.Discipline.Drive
import QueueScript.Proofs.Discipline.Ends
import QueueScript.Proofs.Discipline.Parse
import QueueScript.Proofs.Discipline.Queues
import QueueScript.Proofs.Discipline.Resolve
import QueueScript.Proofs.Doubles
import QueueScript.Proofs.ExecutionGuard
import QueueScript.Proofs.FreshIds
import QueueScript.Proofs.Handoffs
import QueueScript.Proofs.Healthy
import QueueScript.Proofs.HeldEntries
import QueueScript.Proofs.Conservation
import QueueScript.Proofs.Succession
import QueueScript.Proofs.Isolation
import QueueScript.Proofs.Paired.Logic
import QueueScript.Proofs.Paired.Basic
import QueueScript.Proofs.Paired.Resolve
import QueueScript.Proofs.Paired.Parsing
import QueueScript.Proofs.Paired.Commands
import QueueScript.Proofs.Paired.Procedures
import QueueScript.Proofs.Likeness.Basic
import QueueScript.Proofs.Likeness.Commands
import QueueScript.Proofs.Likeness.Operations
import QueueScript.Proofs.LiveQueues
import QueueScript.Proofs.Nesting.Basic
import QueueScript.Proofs.Nesting.Laws
import QueueScript.Proofs.Nesting.Unmarked
import QueueScript.Proofs.Operations
import QueueScript.Proofs.Paths
import QueueScript.Proofs.Procedures
import QueueScript.Proofs.Replacement
import QueueScript.Proofs.Sound
import QueueScript.Proofs.Source.FlatWords
import QueueScript.Proofs.Source.PrintedScripts
import QueueScript.Proofs.Source.ShownCommands
import QueueScript.Proofs.Source.ShownWords
import QueueScript.Proofs.Spawning
import QueueScript.Proofs.Structured.Apart
import QueueScript.Proofs.Structured.Interpreter
import QueueScript.Proofs.Structured.Turns
import QueueScript.Proofs.Tables
import QueueScript.Proofs.Tidy.Basic
import QueueScript.Proofs.Tidy.Laws
import QueueScript.Proofs.Tidy.Reachable
import QueueScript.Proofs.Upkeep.Basic
import QueueScript.Proofs.Upkeep.Commands
import QueueScript.Proofs.Upkeep.Laws
import QueueScript.Proofs.Upkeep.Lines
import QueueScript.Proofs.Upkeep.Runs
import QueueScript.Proofs.Upkeep.Startable
import QueueScript.Proofs.Upkeep.Starts
import QueueScript.Proofs.Wakeful.Basic
import QueueScript.Proofs.Wakeful.Laws
import QueueScript.Proofs.Wakeful.Still
import QueueScript.Proofs.Wakeups
import QueueScript.Source.Fold
import QueueScript.Source.Line
import QueueScript.Source.Script
import QueueScript.Template
import QueueScript.Text.Blank
import QueueScript.Text.Case
import QueueScript.Text.CaseTable
import QueueScript.Text.Identifier
import QueueScript.Text.Units
import QueueScript.Text.Utf8
import QueueScript.Value.Basic
import QueueScript.Value.Json
import QueueScript.Value.View
import QueueScript.Words
import QueueScript.Proofs.Fuel
import QueueScript.Proofs.LoopMarks
import QueueScript.Proofs.Structured.Moves
import QueueScript.Proofs.Tracing
import QueueScript.Proofs.FailedCommands
import QueueScript.Proofs.KeptScripts
import QueueScript.Proofs.Json.Numbers
import QueueScript.Proofs.Json.Objects
import QueueScript.Proofs.Json.RoundTrip
import QueueScript.Proofs.Structured.Blocks
import QueueScript.Proofs.Structured.Programs
import QueueScript.Proofs.Templates.Printing
import QueueScript.Proofs.Templates.Words
import QueueScript.Proofs.Source.Listing
import QueueScript.Proofs.Source.KeptWords
import QueueScript.Proofs.PlainWords
import QueueScript.Proofs.WebResults
import QueueScript.Proofs.Awaiting.Basic
import QueueScript.Proofs.Pacing.Basic
import QueueScript.Proofs.Pacing.Moments
import QueueScript.Proofs.Pacing.Entries
import QueueScript.Proofs.Pacing.Course
import QueueScript.Proofs.Pacing.Turns
import QueueScript.Proofs.Pacing.Programs
import QueueScript.Proofs.Pacing.Progress
import QueueScript.Proofs.Pacing.Agreement
import QueueScript.Proofs.Awaiting.Files
import QueueScript.Proofs.BackgroundFiles
import QueueScript.Proofs.Source.GluedBraces
import QueueScript.Proofs.CompiledRecords
import QueueScript.Proofs.FlaggedWords
import QueueScript.Proofs.LastingIds
import QueueScript.Proofs.Roster
import QueueScript.Proofs.BeatOrder
import QueueScript.Proofs.LoopCounts
