import NullPath.Cfg.Printer
import NullPath.Cfg.Typing
import NullPath.Expr.Names
import NullPath.Expr.Order
import NullPath.Expr.Eval
import NullPath.Expr.Fold
import NullPath.Graph.Formula
import NullPath.Graph.Printer
import NullPath.Memory.Access
import NullPath.Analysis
import NullPath.Solver.Exhaustive
import NullPath.Solver.Dialogue
import NullPath.Text.Utf8
import NullPath.Text.Blank
import NullPath.Ssa.Lower
import NullPath.Report.Writer
import NullPath.Main
import NullPath.Solver.Recorder
import NullPath.Proofs.TreeFormula
import NullPath.Proofs.Folding
import NullPath.Proofs.FoldedValues
import NullPath.Proofs.TermOrder
import NullPath.Proofs.Support
import NullPath.Proofs.NormalForms
import NullPath.Proofs.Readability
import NullPath.Proofs.Values
import NullPath.Proofs.Actions
import NullPath.Proofs.Growth
import NullPath.Proofs.Searchers
import NullPath.Proofs.Visits
import NullPath.Proofs.Paths
import NullPath.Proofs.Realize
import NullPath.Proofs.Entry
import NullPath.Proofs.Scalar
import NullPath.Proofs.ScalarSimulation
import NullPath.Proofs.ScalarCalls
import NullPath.Proofs.ScalarExact
import NullPath.Proofs.Completion
import NullPath.Proofs.Confinement
import NullPath.Proofs.Question
import NullPath.Proofs.Heap
import NullPath.Proofs.HeapShape
import NullPath.Proofs.HeapDescription
import NullPath.Proofs.HeapAccess
import NullPath.Proofs.HeapSimulation
import NullPath.Proofs.NullDereference
import NullPath.Proofs.Outcomes
import NullPath.Proofs.Steps
import NullPath.Proofs.Resumption
import NullPath.Proofs.Shadows
import NullPath.Proofs.Inlining
import NullPath.Proofs.RootedTree
import NullPath.Proofs.Termination
import NullPath.Proofs.Choices
import NullPath.Proofs.Record
import NullPath.Proofs.Walks
import NullPath.Proofs.SearchOrder
import NullPath.Proofs.Preservation
import NullPath.Proofs.Faults
import NullPath.Proofs.NameTypes
import NullPath.Proofs.PointerSorts
import NullPath.Proofs.AssignedFrames
import NullPath.Proofs.LoweredCode
import NullPath.Proofs.LoweredAssignment
import NullPath.Proofs.LoweredPrograms
import NullPath.Proofs.SanityCheck
import NullPath.Proofs.Readings
import NullPath.Proofs.SsaRuns
import NullPath.Proofs.LoweredRuns
import NullPath.Proofs.ValidQueries
import NullPath.Proofs.Tokens
import NullPath.Proofs.ReadBack
import NullPath.Proofs.RoundTrip
import NullPath.Proofs.Layouts
import NullPath.Proofs.Labels
import NullPath.Proofs.ReplyValues
import NullPath.Proofs.Replies
import NullPath.Proofs.Verdicts
import NullPath.Proofs.SwitchGuards
import NullPath.Proofs.FreeInputs
import NullPath.Proofs.CallDepths
import NullPath.Proofs.CellAccess
import NullPath.Proofs.MemoryRuns
import NullPath.Proofs.PointerChains
import NullPath.Proofs.Aliasing
import NullPath.Proofs.Tagging
import NullPath.Proofs.Visibility
import NullPath.Proofs.MovedValues
import NullPath.Proofs.Isolation
import NullPath.Proofs.LoweredShape
import NullPath.Proofs.Division
