import OnlineAggregation.Decimal.Layout

/-!
# Estimates

What is reported of a running mean: how many values it rests on, the mean, the half-width of its
interval, and the confidence in that interval.
-/

namespace OnlineAggregation

open Decimal (Layout fixed)

/-- The interval `mean ± epsilon` at a confidence. -/
structure Estimate where
  /-- How many values the mean is taken over. -/
  count : Nat
  mean : Float
  /-- Its half-width, infinite while there is no bound. -/
  epsilon : Float
  /-- The confidence that the interval covers the true mean. -/
  confidence : Float
deriving DecidableEq

namespace Estimate

def lower (e : Estimate) : Float :=
  e.mean - e.epsilon

def upper (e : Estimate) : Float :=
  e.mean + e.epsilon

def contains (e : Estimate) (x : Float) : Bool :=
  e.lower ≤ x && x ≤ e.upper

/-- The estimate in one line, mean and half-width to six places. -/
def text (e : Estimate) : String :=
  "n=" ++ toString e.count ++ ", mean=" ++ fixed 6 e.mean ++ " ± " ++ fixed 6 e.epsilon ++
    " (confidence " ++ Layout.message.write e.confidence ++ ")"

end Estimate

end OnlineAggregation
