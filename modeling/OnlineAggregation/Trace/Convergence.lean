import OnlineAggregation.Mean.Estimate
import OnlineAggregation.Trace.Schedule

/-!
# Convergence traces

A trace is the record of how an estimate converged: estimates in the order in which they were made,
thinned out by a schedule, and the last one in any case.
-/

namespace OnlineAggregation

/-- A schedule and the estimates kept so far. -/
structure ConvergenceTrace where
  schedule : Schedule
  /-- The estimates kept, oldest first. -/
  entries : Array Estimate
deriving DecidableEq

namespace ConvergenceTrace

def empty (schedule : Schedule) : ConvergenceTrace :=
  { schedule, entries := #[] }

/-- Keeps an estimate whatever its count. -/
def push (t : ConvergenceTrace) (e : Estimate) : ConvergenceTrace :=
  { t with entries := t.entries.push e }

/-- Whether the schedule asks for an estimate. -/
def keeps (t : ConvergenceTrace) (e : Estimate) : Bool :=
  t.schedule.isDue e.count

/-- Keeps an estimate if the schedule asks for its count. -/
def record (t : ConvergenceTrace) (e : Estimate) : ConvergenceTrace :=
  if t.keeps e then t.push e else t

/-- The estimate kept last. -/
def latest (t : ConvergenceTrace) : Option Estimate :=
  t.entries.back?

/-- Keeps the final estimate, unless the latest entry has its count already. -/
def finish (t : ConvergenceTrace) (e : Estimate) : ConvergenceTrace :=
  if t.latest.map Estimate.count = some e.count then t else t.push e

/-! ## What the operations do to the entries -/

@[simp] theorem toList_push (t : ConvergenceTrace) (e : Estimate) :
    (t.push e).entries.toList = t.entries.toList ++ [e] := by
  simp [push]

@[simp] theorem latest_push (t : ConvergenceTrace) (e : Estimate) :
    (t.push e).latest = some e := by
  simp [push, latest]

/-- An estimate that is due is added at the end, and any other changes nothing. -/
theorem toList_record (t : ConvergenceTrace) (e : Estimate) :
    (t.record e).entries.toList = t.entries.toList ++ [e].filter t.keeps := by
  unfold record
  split <;> simp [*]

theorem latest_eq_getLast? (t : ConvergenceTrace) : t.latest = t.entries.toList.getLast? := by
  simp [latest]

/-- A final estimate whose count the latest entry has already changes nothing. -/
theorem finish_of_count_eq {t : ConvergenceTrace} {e : Estimate}
    (h : t.latest.map Estimate.count = some e.count) : t.finish e = t :=
  if_pos h

/-- Any other final estimate is kept. -/
theorem finish_of_count_ne {t : ConvergenceTrace} {e : Estimate}
    (h : t.latest.map Estimate.count ≠ some e.count) : t.finish e = t.push e :=
  if_neg h

theorem toList_finish (t : ConvergenceTrace) (e : Estimate) :
    (t.finish e).entries.toList =
      t.entries.toList ++ if t.latest.map Estimate.count = some e.count then [] else [e] := by
  unfold finish
  split <;> simp

/-- After the end the latest entry has the count of the final estimate. -/
theorem count_latest_finish (t : ConvergenceTrace) (e : Estimate) :
    (t.finish e).latest.map Estimate.count = some e.count := by
  unfold finish
  split
  · assumption
  · simp

end ConvergenceTrace

end OnlineAggregation
