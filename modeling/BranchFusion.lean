import BranchFusion.Analyses
import BranchFusion.Block
import BranchFusion.CommandLine.Command
import BranchFusion.CommandLine.FileTree
import BranchFusion.CommandLine.Flag
import BranchFusion.CommandLine.Host
import BranchFusion.CommandLine.Tool
import BranchFusion.Config
import BranchFusion.Config.Cursor
import BranchFusion.Config.Document
import BranchFusion.Config.Error
import BranchFusion.Config.Filling
import BranchFusion.Config.Key
import BranchFusion.Config.Meaning
import BranchFusion.Config.Node
import BranchFusion.Config.Property
import BranchFusion.Config.Scalar
import BranchFusion.Config.Supply
import BranchFusion.Config.Tag
import BranchFusion.Config.Timestamp
import BranchFusion.Config.Token
import BranchFusion.Config.Writer
import BranchFusion.Counters
import BranchFusion.Dominance.Forest
import BranchFusion.Dominance.Spanning
import BranchFusion.Dominance.Tree
import BranchFusion.Dot
import BranchFusion.Emulator
import BranchFusion.Environment
import BranchFusion.Fault
import BranchFusion.Flow.PostOrder
import BranchFusion.Flow.Reach
import BranchFusion.Func
import BranchFusion.Instr
import BranchFusion.Journal
import BranchFusion.Main
import BranchFusion.Module
import BranchFusion.Operator
import BranchFusion.Optimizer
import BranchFusion.Options
import BranchFusion.Pass.Basic
import BranchFusion.Pass.BlockMerge
import BranchFusion.Pass.DeadCode
import BranchFusion.Pass.NestedIf
import BranchFusion.Pipeline.Manager
import BranchFusion.Pipeline.Node
import BranchFusion.Pipeline.Parser
import BranchFusion.Pipeline.Registry
import BranchFusion.Proofs.Availability
import BranchFusion.Proofs.Contraction
import BranchFusion.Proofs.ControlFlow
import BranchFusion.Proofs.Dominance.DepthFirst
import BranchFusion.Proofs.Dominance.PathMinima
import BranchFusion.Proofs.Dominance.Search
import BranchFusion.Proofs.Dominance.Tree
import BranchFusion.Proofs.Emulation.Absorption
import BranchFusion.Proofs.Emulation.Agreement
import BranchFusion.Proofs.Emulation.Simulation
import BranchFusion.Proofs.Graph.Dominance
import BranchFusion.Proofs.Graph.Semidominator
import BranchFusion.Proofs.Optimizer
import BranchFusion.Proofs.Pass.BlockMerge
import BranchFusion.Proofs.Pass.DeadCode
import BranchFusion.Proofs.Pass.Fold
import BranchFusion.Proofs.Pass.NestedIf
import BranchFusion.Proofs.Pipeline
import BranchFusion.Proofs.Reachability
import BranchFusion.Proofs.Source.Reading
import BranchFusion.Proofs.Tables
import BranchFusion.Proofs.Validity
import BranchFusion.Session.Basic
import BranchFusion.Session.Run
import BranchFusion.Source.Error
import BranchFusion.Source.Parser
import BranchFusion.Source.Printer
import BranchFusion.Table
import BranchFusion.Terminator
import BranchFusion.Text.Base64
import BranchFusion.Text.Blank
import BranchFusion.Text.Bytes
import BranchFusion.Text.Decimal
import BranchFusion.Text.LowerCase
import BranchFusion.Text.Numeral
import BranchFusion.Text.Printable
import BranchFusion.Text.Quoted
import BranchFusion.Text.Truth
import BranchFusion.Value
import BranchFusion.Verifier
import BranchFusion.Proofs.WellBuilt
import BranchFusion.Proofs.Source.Draft
import BranchFusion.Proofs.Source.WellBuilt
import BranchFusion.Proofs.Pass.WellBuilt
import BranchFusion.Proofs.Pipeline.Execution
import BranchFusion.Proofs.Pipeline.Termination
import BranchFusion.Proofs.Pipeline.Coherence
import BranchFusion.Proofs.Source.Spelling
import BranchFusion.Proofs.Source.Printed
import BranchFusion.Proofs.Isomorphism
import BranchFusion.Proofs.Source.Acceptance
import BranchFusion.Proofs.Source.Rereading
import BranchFusion.Proofs.Source.RoundTrip
import BranchFusion.Proofs.Emulation.Progress
import BranchFusion.Proofs.Source.Naming
import BranchFusion.Proofs.Source.Stability
import BranchFusion.Proofs.Pipeline.Grammar
import BranchFusion.Proofs.Outcome
import BranchFusion.Proofs.Pipeline.Independence
import BranchFusion.Proofs.Source.Newlines
import BranchFusion.Proofs.Pipeline.Change
import BranchFusion.Proofs.Renaming
import BranchFusion.Proofs.Pass.Renaming
import BranchFusion.Proofs.Pipeline.Renaming
import BranchFusion.Proofs.Source.Alike
import BranchFusion.Proofs.Source.Pairs
import BranchFusion.Proofs.Source.Settled
import BranchFusion.Proofs.Source.PairOrder
import BranchFusion.Proofs.Pipeline.PairOrder
import BranchFusion.Proofs.Pass.Behaviour
import BranchFusion.Proofs.Pass.Support
import BranchFusion.Proofs.PostOrder
import BranchFusion.Proofs.Drawing
import BranchFusion.Proofs.Traversals
import BranchFusion.Proofs.Pass.Attempts
import BranchFusion.Proofs.Pass.Modes
import BranchFusion.Proofs.Pass.Levels
import BranchFusion.Proofs.Pass.Bookkeeping
import BranchFusion.Proofs.FinishingOrder
import BranchFusion.Proofs.Pass.Chains
import BranchFusion.Proofs.Pipeline.Rounds
import BranchFusion.Proofs.Pipeline.Composition
import BranchFusion.Proofs.Pipeline.EarlyExit
import BranchFusion.Proofs.Pass.Completeness
import BranchFusion.Proofs.Pipeline.Failures
import BranchFusion.Proofs.Pipeline.Registration
import BranchFusion.Proofs.Pipeline.Canonical
import BranchFusion.Proofs.Emulation.Failures
import BranchFusion.Proofs.Source.OpenBlocks
import BranchFusion.Proofs.Pipeline.Effective
import BranchFusion.Proofs.DrawnGraph
import BranchFusion.Proofs.DrawnText
import BranchFusion.Proofs.CommandLine.Delivery
import BranchFusion.Proofs.Dominance.Questions
import BranchFusion.Proofs.Pass.Material
import BranchFusion.Proofs.Pass.NewValues
