import SortTrace.Execution
import SortTrace.Source.Labels

/-!
# Reports

The document that tells about a run in report mode: how it ended, what the source seems to be, what
was printed and which states were logged. It has a place for the time the run took, which is given
as zero, since no clock is read.
-/

namespace SortTrace.Report

/-- How a run ended, in one word. -/
def status (o : Outcome) : String :=
  if o.fault.isSome then "error" else "success"

/-- The report of a run of a source. -/
def ofOutcome (source : String) (o : Outcome) : Json :=
  .object [
    ("status", .str (status o)),
    ("algorithm", .str (Source.detect source).name),
    ("functions", .array ((Source.definitions source.toList).map fun p => .str p.1)),
    ("output", .str o.session.captured),
    ("steps", .array (o.session.steps.toList.map Step.toJson)),
    ("executionTime", .int 0),
    ("error", match o.fault with
      | some f => .str f.message
      | none => .null)]

end SortTrace.Report
