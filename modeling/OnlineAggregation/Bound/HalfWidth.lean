import OnlineAggregation.Bound.Domain
import OnlineAggregation.Numeric.NaturalLog

/-!
# Half-widths of confidence intervals

By Hoeffding's inequality the mean of `n` independent values from a range of width `w` is further
than `ε` from its expectation with probability at most `2 exp (-2 n ε² / w²)`. Setting this to
`1 - c` and solving for `ε` gives the half-width `w √(ln (2 / (1 - c)) / (2 n))` at confidence `c`.
-/

namespace OnlineAggregation

open Numeric (NaturalLog ln)

/-! ## §1 Confidence levels -/

/-- A probability strictly between 0 and 1. -/
structure ConfidenceLevel where
  value : Float
  positive : 0.0 < value
  below_one : value < 1.0
deriving DecidableEq

/-- Accepts exactly the numbers strictly between 0 and 1. -/
def ConfidenceLevel.check (c : Float) : Except EstimationError ConfidenceLevel :=
  if h : 0.0 < c ∧ c < 1.0 then .ok ⟨c, h.1, h.2⟩ else .error (.confidenceOutOfRange c)

@[simp] theorem ConfidenceLevel.check_value (c : ConfidenceLevel) : check c.value = .ok c :=
  dif_pos ⟨c.positive, c.below_one⟩

theorem ConfidenceLevel.value_of_check {c : Float} {level : ConfidenceLevel}
    (h : check c = .ok level) : level.value = c := by
  unfold check at h
  split at h
  · cases h
    rfl
  · cases h

/-- A refusal names the number, which is not strictly between 0 and 1. -/
theorem ConfidenceLevel.check_eq_error_iff {c : Float} {e : EstimationError} :
    check c = .error e ↔ e = .confidenceOutOfRange c ∧ ¬ (0.0 < c ∧ c < 1.0) := by
  unfold check
  split
  · simp [*]
  · rename_i h
    simp only [Except.error.injEq, h, not_false_eq_true, and_true]
    exact eq_comm

/-! ## §2 The formula -/

variable [NaturalLog]

/-- The logarithm `ln (2 / (1 - c))` that a confidence level contributes. -/
def ConfidenceLevel.logTerm (c : ConfidenceLevel) : Float :=
  ln (2.0 / (1.0 - c.value))

/-- The half-width for `n` values from a range of the given width. -/
def ConfidenceLevel.hoeffding (c : ConfidenceLevel) (n : Nat) (width : Float) : Float :=
  width * Float.sqrt (c.logTerm / (2.0 * Float.ofNat n))

/-- The half-width after `seen` observations from a range. -/
def seenHalfWidth (confidence : Float) (seen : Nat) (range : ValueRange) :
    Except EstimationError Float := do
  let level ← ConfidenceLevel.check confidence
  if seen = 0 then
    .error .noObservations
  else
    .ok (level.hoeffding seen range.width)

/-- The half-width that `planned` observations from a range will have once they are made. -/
def plannedHalfWidth (confidence : Float) (range : ValueRange) (planned : Nat) :
    Except EstimationError Float :=
  if planned = 0 then
    .error .zeroPlannedSamples
  else
    seenHalfWidth confidence planned range

/-- At a valid level and for at least one observation the half-width is the formula. -/
theorem seenHalfWidth_of_ne_zero (c : ConfidenceLevel) {n : Nat} (hn : n ≠ 0) (r : ValueRange) :
    seenHalfWidth c.value n r = .ok (c.hoeffding n r.width) := by
  simp [seenHalfWidth, hn, bind, Except.bind]

/-- At a valid level, no observation is the only thing that can be wrong. -/
theorem seenHalfWidth_zero (c : ConfidenceLevel) (r : ValueRange) :
    seenHalfWidth c.value 0 r = .error .noObservations := by
  simp [seenHalfWidth, bind, Except.bind]

end OnlineAggregation
