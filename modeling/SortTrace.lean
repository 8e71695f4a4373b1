import SortTrace.Main
import SortTrace.Proofs.Modes
import SortTrace.Proofs.Observation
import SortTrace.Proofs.Printing.Brackets
import SortTrace.Proofs.Printing.Atoms
import SortTrace.Proofs.Printing.Operators
import SortTrace.Proofs.Printing.Expr
import SortTrace.Proofs.Printing.Layout
import SortTrace.Proofs.Printing.Line
import SortTrace.Proofs.Printing.Program
import SortTrace.Proofs.Instrumenting.Tokens
import SortTrace.Proofs.Instrumenting.Threads
import SortTrace.Proofs.Instrumenting.Expr
import SortTrace.Proofs.Instrumenting.Line
import SortTrace.Proofs.Instrumenting.Block
import SortTrace.Proofs.Instrumenting.Program
import SortTrace.Proofs.Instrumenting.Text
import SortTrace.Proofs.Instrumenting.Steps
import SortTrace.Proofs.Instrumenting.Mirror
import SortTrace.Proofs.Instrumenting.Trace
import SortTrace.Proofs.Instrumenting.LogLine
import SortTrace.Proofs.Instrumenting.Lines
import SortTrace.Proofs.Instrumenting.Origins
import SortTrace.Proofs.Instrumenting.Source
import SortTrace.Proofs.Instrumenting.Headers
import SortTrace.Proofs.CallStack
import SortTrace.Proofs.FullSink
import SortTrace.Proofs.ControlFlow.Flows
import SortTrace.Proofs.Assignable
import SortTrace.Proofs.DeclaredGlobals
import SortTrace.Proofs.BubbleSort.Sorted
import SortTrace.Proofs.Instrumenting.Interleaving
import SortTrace.Proofs.Owned.Lines
import SortTrace.Proofs.SameOutput
import SortTrace.Proofs.Written.ReadBack
import SortTrace.Proofs.Accounting.Program
import SortTrace.Proofs.ItemSwap.Run
import SortTrace.Proofs.RecursionLimit
import SortTrace.Proofs.TimeLimit
import SortTrace.Proofs.MarkerLines
import SortTrace.Proofs.Ordering.StableSort
import SortTrace.Proofs.Slices.Writing
import SortTrace.Proofs.Ranges
import SortTrace.Proofs.Arithmetic.Exact
import SortTrace.Proofs.Arithmetic.Power
import SortTrace.Proofs.Documents.Lossless
import SortTrace.Proofs.Written.Cycles
import SortTrace.Proofs.Written.Lexemes
import SortTrace.Proofs.Scanning.Arranged
import SortTrace.Proofs.Scanning.BlankLines
import SortTrace.Proofs.Scanning.Indentation
import SortTrace.Proofs.Scanning.CarriageReturns
import SortTrace.Proofs.Refusals
import SortTrace.Proofs.SequenceLimit
import SortTrace.Proofs.Arguments
import SortTrace.Proofs.Depth.Program
import SortTrace.Proofs.OneLine.Writer
import SortTrace.Proofs.Ordering.Extremes
import SortTrace.Proofs.ScopesApart
import SortTrace.Proofs.LazyLoops
import SortTrace.Proofs.Written.Numerals
import SortTrace.Proofs.Instrumenting.WatchedName
import SortTrace.Proofs.Logging
import SortTrace.Proofs.Headings.Listing
import SortTrace.Proofs.Ordering.InPlace
import SortTrace.Proofs.CallFree
