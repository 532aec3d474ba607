import OnlineAggregation.Mean.Accumulator
import OnlineAggregation.Mean.Event

/-!
# Aggregators

An aggregator watches a running mean. The accumulator belongs to the caller, who hands it in with
each value and receives the next one. The aggregator itself remembers how many values it has
accepted, their range, and the half-width after the last of them.
-/

namespace OnlineAggregation

open Numeric (NaturalLog)

/-- A strategy at a confidence level, and what it has seen. -/
structure Aggregator where
  confidence : ConfidenceLevel
  strategy : Strategy
  /-- How many values were accepted. -/
  observations : Nat
  /-- Their range. -/
  observed : Option ValueRange
  /-- The half-width now, if there is one. -/
  epsilon? : Option Float
deriving DecidableEq

namespace Aggregator

/-! ## §1 Setting up -/

section Construction

variable [NaturalLog]

/-- An aggregator that has seen nothing. -/
def start (confidence : Float) (strategy : Strategy) : Except EstimationError Aggregator := do
  let level ← ConfidenceLevel.check confidence
  let epsilon? ←
    -- Only a half-width that does not wait for data is known already.
    if strategy.dependsOnData then pure none
    else some <$> strategy.halfWidth level.value 0 none
  pure { confidence := level, strategy, observations := 0, observed := none, epsilon? }

/-- A large-sample aggregator over the range of the values seen. -/
def largeSample (confidence : Float) : Except EstimationError Aggregator :=
  start confidence (.largeSample none)

/-- A large-sample aggregator over a declared domain. -/
def largeSampleWithin (confidence lower upper : Float) : Except EstimationError Aggregator := do
  let domain ← ValueDomain.check lower upper
  start confidence (.largeSample (some domain))

def conservative (confidence lower upper : Float) : Except EstimationError Aggregator := do
  let domain ← ValueDomain.check lower upper
  start confidence (.conservative domain)

/-- A deterministic aggregator at a chosen confidence. -/
def deterministicAt (confidence lower upper : Float) (planned : Nat) :
    Except EstimationError Aggregator := do
  let domain ← ValueDomain.check lower upper
  if planned = 0 then
    .error .zeroPlannedSamples
  else
    start confidence (.deterministic domain planned)

end Construction

/-- The confidence of whoever names none. -/
def defaultConfidence : Float := 0.95

/-- A deterministic aggregator at the default confidence. -/
def deterministic [NaturalLog] (lower upper : Float) (planned : Nat) :
    Except EstimationError Aggregator :=
  deterministicAt defaultConfidence lower upper planned

def created (f : Aggregator) : Event :=
  .created f.strategy f.confidence.value

/-! ## §2 Asking -/

/-- The half-width of the current interval. -/
def epsilon (f : Aggregator) : Except EstimationError Float :=
  match f.epsilon? with
  | some e => .ok e
  | none => .error .halfWidthUnavailable

/-- An accumulator with the current half-width. -/
def estimate (f : Aggregator) (a : Accumulator Float) : Except EstimationError Estimate := do
  let epsilon ← f.epsilon
  pure { count := a.count, mean := a.mean, epsilon, confidence := f.confidence.value }

/-- The normal coverage of the current half-width. -/
def coverage [Numeric.ErrorFunction] (f : Aggregator) (a : Accumulator Float) :
    Except EstimationError Float := do
  let epsilon ← f.epsilon
  pure (a.normalCoverage epsilon)

/-! ## §3 Folding -/

/-- What an accepted value leads to. -/
structure Folded where
  accumulator : Accumulator Float
  aggregator : Aggregator
  events : List Event

/-- The range of the values seen once `v` is one of them. -/
def observedWith (f : Aggregator) (v : Float) : ValueRange :=
  match f.observed with
  | none => ValueRange.point v
  | some range => range.widen v

/-- The warning about a value outside the declared domain. -/
def domainEvents (f : Aggregator) (v : Float) : List Event :=
  match f.strategy.domain? with
  | some domain => if domain.contains v then [] else [.outsideDomain v domain f.strategy]
  | none => []

variable [NaturalLog]

/-- The half-width after `seen` values in `observed`, or none while the strategy has none. -/
def refreshed (f : Aggregator) (seen : Nat) (observed : ValueRange) :
    Except EstimationError (Option Float) :=
  if f.strategy.dependsOnData then
    match f.strategy.halfWidth f.confidence.value seen (some observed) with
    | .ok e => .ok (some e)
    -- Not a failure: the next value may bring one.
    | .error .halfWidthUnavailable => .ok none
    | .error cause => .error cause
  else
    .ok f.epsilon?

/-- Folds a value into an accumulator, or into a new one. A refused value changes nothing. -/
def fold (f : Aggregator) (a : Option (Accumulator Float)) (v : Float) :
    Except EstimationError Folded := do
  let accumulator ← Accumulator.extend a v
  let observations := f.observations + 1
  let observed := f.observedWith v
  let epsilon? ← f.refreshed observations observed
  -- The warning of the domain comes first, and only for values that are accepted.
  pure
    { accumulator
      aggregator := { f with observations, observed := some observed, epsilon? }
      events := f.domainEvents v ++ [.folded observations v accumulator.mean epsilon?] }

end Aggregator

end OnlineAggregation
