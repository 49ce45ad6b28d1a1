import Clocked.Analysis.Components
import Clocked.Analysis.Levels
import Clocked.Analysis.Loops
import Clocked.Circuit.Basic
import Clocked.Circuit.Stats
import Clocked.Command.Basic
import Clocked.Command.Disk
import Clocked.Command.Options
import Clocked.Description.Basic
import Clocked.Description.Reader
import Clocked.Element
import Clocked.Expr.Basic
import Clocked.Expr.Text
import Clocked.Failure
import Clocked.Log
import Clocked.Main
import Clocked.Number.Basic
import Clocked.Number.Binary64
import Clocked.Number.Text
import Clocked.Proofs.Analysis.Components
import Clocked.Proofs.Analysis.Loops
import Clocked.Proofs.Analysis.Search
import Clocked.Proofs.Circuit.Behaviour
import Clocked.Proofs.Circuit.OutOfOrder
import Clocked.Proofs.Circuit.Soundness
import Clocked.Proofs.Description.Completeness
import Clocked.Proofs.Description.Grammar
import Clocked.Proofs.Description.Parts
import Clocked.Proofs.Description.Places
import Clocked.Proofs.Description.Printing
import Clocked.Proofs.Description.Reading
import Clocked.Proofs.Description.RightHandSide
import Clocked.Proofs.Description.RoundTrip
import Clocked.Proofs.Description.Soundness
import Clocked.Proofs.Description.States
import Clocked.Proofs.Expr.Parentheses
import Clocked.Proofs.Expr.RoundTrip
import Clocked.Proofs.Expr.Tokens
import Clocked.Proofs.Run.Cycle
import Clocked.Proofs.Run.Names
import Clocked.Proofs.Run.Success
import Clocked.Proofs.Session.Bookkeeping
import Clocked.Proofs.Session.Hooks
import Clocked.Proofs.Session.Operations
import Clocked.Proofs.Session.Outcome
import Clocked.Proofs.Session.Permutation
import Clocked.Proofs.Session.Simulation
import Clocked.Proofs.Session.Steps
import Clocked.Proofs.Source.Spelling
import Clocked.Report.Traces
import Clocked.Report.Vcd
import Clocked.Run
import Clocked.Session.Basic
import Clocked.Session.Source
import Clocked.SimulationError
import Clocked.Source.Lexeme
import Clocked.Source.Location
import Clocked.Source.SyntaxError
import Clocked.Source.Token
import Clocked.Source.Tokens
import Clocked.Store
import Clocked.Table
import Clocked.Text.Units
import Clocked.Text.Utf8
import Clocked.Trace
import Clocked.Waveform
import Clocked.Proofs.Analysis.Levels
import Clocked.Proofs.Circuit.Levels
import Clocked.Proofs.Session.Order
import Clocked.Proofs.Source.Gaps
import Clocked.Proofs.Source.Lexemes
import Clocked.Proofs.Source.Units
import Clocked.Proofs.Source.Layout
import Clocked.Proofs.Source.Separators
import Clocked.Proofs.Run.Stimuli
import Clocked.Proofs.Session.Rerun
import Clocked.Proofs.Session.Completed
import Clocked.Proofs.Session.Handed
import Clocked.Proofs.Session.Transcript
import Clocked.Proofs.Session.Moments
import Clocked.Proofs.Session.Recording
import Clocked.Proofs.Session.Interference
import Clocked.Proofs.Session.Causality
import Clocked.Proofs.Analysis.Depth
import Clocked.Proofs.Circuit.Stats
import Clocked.Proofs.Session.Counter
import Clocked.Proofs.Command.Options
import Clocked.Proofs.Command.Replies
import Clocked.Proofs.Number.Text
import Clocked.Proofs.Report.Vcd
import Clocked.Proofs.Command.Waveform
import Clocked.Proofs.Source.Notes
import Clocked.Proofs.Circuit.Acceptance
import Clocked.Proofs.Description.Prefixes
import Clocked.Proofs.Description.SectionOrder
import Clocked.Proofs.Expr.Evaluation
import Clocked.Proofs.Command.ExitCode
import Clocked.Proofs.Number.Reading
import Clocked.Proofs.Report.Dump
import Clocked.Proofs.Report.Lines
import Clocked.Proofs.Report.Identifiers
import Clocked.Proofs.Report.Traces
import Clocked.Proofs.Description.Positions
