import OnlineAggregation.Mean.Aggregator

/-!
# Estimators

An estimator keeps the accumulator beside its aggregator, for callers who do not want to hand it
along themselves.
-/

namespace OnlineAggregation

open Numeric (NaturalLog)

/-- An aggregator with its accumulator, which is absent before the first value. -/
structure Estimator where
  aggregator : Aggregator
  accumulator? : Option (Accumulator Float)
deriving DecidableEq

namespace Estimator

/-- An estimator to which no value was added. -/
def ofAggregator (f : Aggregator) : Estimator :=
  { aggregator := f, accumulator? := none }

/-- The current mean, NaN before the first value. -/
def estimation (e : Estimator) : Float :=
  match e.accumulator? with
  | some a => a.mean
  | none => Numeric.nan

/-- The half-width of the current interval. -/
def epsilon (e : Estimator) : Except EstimationError Float :=
  e.aggregator.epsilon

/-- The current estimate: none before the first value, refused while the values seen determine
no half-width. -/
def estimate (e : Estimator) : Except EstimationError (Option Estimate) :=
  match e.accumulator? with
  | none => .ok none
  | some a => some <$> e.aggregator.estimate a

/-- The current estimate, with an infinite half-width while there is no bound. -/
def estimateOrUnbounded (e : Estimator) : Option Estimate :=
  e.accumulator?.map fun a =>
    { count := a.count
      mean := a.mean
      epsilon := e.aggregator.epsilon?.getD Numeric.infinity
      confidence := e.aggregator.confidence.value }

/-- Adds a value. A refused value changes nothing. -/
def add [NaturalLog] (e : Estimator) (v : Float) :
    Except EstimationError (Estimator × List Event) := do
  let next ← e.aggregator.fold e.accumulator? v
  pure ({ aggregator := next.aggregator, accumulator? := some next.accumulator }, next.events)

end Estimator

end OnlineAggregation
