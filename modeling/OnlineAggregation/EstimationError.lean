import OnlineAggregation.Decimal.Layout

/-!
# What an estimation can refuse

One type of causes serves parameters, values and queries. Its three categories tell a caller whether
the parameters, the data or the moment of the question was at fault.
-/

namespace OnlineAggregation

open Decimal (Layout)

/-- Why an estimation step was refused. -/
inductive EstimationError where
  /-- A confidence level that is not strictly between 0 and 1. -/
  | confidenceOutOfRange (confidence : Float)
  /-- Ends of a value domain that are not finite or in the wrong order. -/
  | invalidBounds (lower upper : Float)
  | zeroPlannedSamples
  /-- A target half-width that is not finite and positive, or out of reach. -/
  | invalidPrecision (target : Float)
  /-- An observation that is NaN or infinite. -/
  | nonFiniteValue (value : Float)
  /-- A half-width asked for before any observation. -/
  | noObservations
  /-- A half-width asked for while the values seen determine none. -/
  | halfWidthUnavailable
deriving DecidableEq

namespace EstimationError

/-- Where the fault lies. -/
inductive Category where
  /-- In the parameters of a construction. -/
  | configuration
  /-- In a value or a count. -/
  | domain
  /-- In asking before there is an answer. -/
  | state
deriving DecidableEq, Repr

def category : EstimationError → Category
  | confidenceOutOfRange _ | invalidBounds .. | zeroPlannedSamples | invalidPrecision _ =>
    .configuration
  | nonFiniteValue _ | noObservations => .domain
  | halfWidthUnavailable => .state

def message : EstimationError → String
  | confidenceOutOfRange confidence =>
    "confidence level must lie strictly between 0 and 1, got " ++ Layout.message.write confidence
  | invalidBounds lower upper =>
    "invalid value bounds: lower=" ++ Layout.message.write lower ++
      ", upper=" ++ Layout.message.write upper
  | zeroPlannedSamples => "planned sample count must be > 0"
  | invalidPrecision target =>
    "target precision must be finite and > 0, got " ++ Layout.message.write target
  | nonFiniteValue value => "observed value is not finite: " ++ Layout.message.write value
  | noObservations => "error bound requires at least one observation"
  | halfWidthUnavailable => "epsilon is undefined before the first observation"

end EstimationError

end OnlineAggregation
