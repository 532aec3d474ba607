import OnlineAggregation.Run.PrecisionRun
import OnlineAggregation.Trace.Convergence

/-!
# Traced runs

The items of a run are gathered in a report: estimates go to a convergence trace as its schedule
asks, the last of them in any case, and refusals are kept with their place among the items.
-/

namespace OnlineAggregation

/-- What is kept of the items of a run. -/
structure RunReport where
  size : Nat
  last : Option Estimate
  /-- The refusals in order, each with the number of its item counted from 0. -/
  refusals : Array (Nat × EstimationError)
  trace : ConvergenceTrace

namespace RunReport

def empty (schedule : Schedule) : RunReport :=
  { size := 0, last := none, refusals := #[], trace := ConvergenceTrace.empty schedule }

/-- Takes in one more item. -/
def add (r : RunReport) (item : Item) : RunReport :=
  match item with
  | .ok e => { r with size := r.size + 1, last := some e, trace := r.trace.record e }
  | .error cause => { r with size := r.size + 1, refusals := r.refusals.push (r.size, cause) }

/-- Closes the trace with the last estimate. -/
def close (r : RunReport) : RunReport :=
  match r.last with
  | some e => { r with trace := r.trace.finish e }
  | none => r

/-- The report on all items of a run. -/
def ofItems (schedule : Schedule) (items : List Item) : RunReport :=
  (items.foldl add (empty schedule)).close

end RunReport

end OnlineAggregation
