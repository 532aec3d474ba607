import OnlineAggregation.Bound.HalfWidth

/-!
# Bound strategies

A strategy turns what has been seen into a half-width. Two of them look at the data: the
conservative one at the count only, the large-sample one also at the range of the values when no
domain was declared. The deterministic one was fixed before the first value.
-/

namespace OnlineAggregation

open Numeric (NaturalLog)

/-- How the half-width of an interval is found. -/
inductive Strategy where
  /-- For samples large enough for the central limit theorem. -/
  | largeSample (domain : Option ValueDomain)
  /-- For any sample from a known domain. -/
  | conservative (domain : ValueDomain)
  /-- For a sample from a known domain whose size is settled in advance. -/
  | deterministic (domain : ValueDomain) (planned : Nat)
deriving DecidableEq

namespace Strategy

def name : Strategy → String
  | largeSample _ => "large-sample"
  | conservative _ => "conservative"
  | deterministic .. => "deterministic"

/-- Whether the half-width moves as values arrive. -/
def dependsOnData : Strategy → Bool
  | deterministic .. => false
  | _ => true

def domain? : Strategy → Option ValueDomain
  | largeSample domain => domain
  | conservative domain => some domain
  | deterministic domain _ => some domain

/-- The half-width after `seen` values in the range `observed`. -/
def halfWidth [NaturalLog] (s : Strategy) (confidence : Float) (seen : Nat)
    (observed : Option ValueRange) : Except EstimationError Float :=
  match s, observed with
  | largeSample (some domain), _ => seenHalfWidth confidence seen domain.toValueRange
  | largeSample none, some range =>
    -- The range seen stands in for the domain, but not while all values are equal.
    if 0.0 < range.width then seenHalfWidth confidence seen range
    else .error .halfWidthUnavailable
  | largeSample none, none => .error .noObservations
  | conservative domain, _ => seenHalfWidth confidence seen domain.toValueRange
  -- Known before the first value, and the same after every value.
  | deterministic domain planned, _ => plannedHalfWidth confidence domain.toValueRange planned

/-- The deterministic half-width is that of the planned count, whatever was seen. -/
theorem halfWidth_deterministic [NaturalLog] (domain : ValueDomain) (planned : Nat)
    (confidence : Float) (seen : Nat) (observed : Option ValueRange) :
    (deterministic domain planned).halfWidth confidence seen observed =
      plannedHalfWidth confidence domain.toValueRange planned := by
  cases observed <;> rfl

end Strategy

end OnlineAggregation
