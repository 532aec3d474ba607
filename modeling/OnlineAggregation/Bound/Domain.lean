import OnlineAggregation.EstimationError

/-!
# Ranges of values

A range is a pair of ends, such as the least and the greatest value seen. A domain is a range that
was declared in advance and checked: its ends are finite and in order.
-/

namespace OnlineAggregation

/-! ## §1 Ranges -/

/-- The values from `lower` to `upper`. -/
structure ValueRange where
  lower : Float
  upper : Float
deriving DecidableEq

namespace ValueRange

/-- The range of one value. -/
def point (v : Float) : ValueRange :=
  ⟨v, v⟩

def width (r : ValueRange) : Float :=
  r.upper - r.lower

/-- Whether `v` lies between the ends or on one of them. -/
def contains (r : ValueRange) (v : Float) : Bool :=
  r.lower ≤ v && v ≤ r.upper

/-- The least range around `r` and `v`. -/
def widen (r : ValueRange) (v : Float) : ValueRange :=
  -- An end stays only if it lies strictly beyond `v`, so of two equal zeros the last one is kept.
  { lower := if r.lower < v then r.lower else v
    upper := if v < r.upper then r.upper else v }

end ValueRange

/-! ## §2 Domains -/

/-- A declared range with finite ends in order. -/
structure ValueDomain extends ValueRange where
  lower_finite : lower.isFinite = true
  upper_finite : upper.isFinite = true
  ordered : ¬ upper < lower
deriving DecidableEq

/-- Declares the values from `lower` to `upper` as the domain. -/
def ValueDomain.check (lower upper : Float) : Except EstimationError ValueDomain :=
  if h : lower.isFinite = true ∧ upper.isFinite = true ∧ ¬ upper < lower then
    .ok ⟨⟨lower, upper⟩, h.1, h.2.1, h.2.2⟩
  else
    .error (.invalidBounds lower upper)

@[simp] theorem ValueDomain.check_self (d : ValueDomain) : check d.lower d.upper = .ok d :=
  dif_pos ⟨d.lower_finite, d.upper_finite, d.ordered⟩

/-- An accepted pair of ends is the domain. -/
theorem ValueDomain.ends_of_check {lower upper : Float} {d : ValueDomain}
    (h : check lower upper = .ok d) : d.lower = lower ∧ d.upper = upper := by
  unfold check at h
  split at h
  · cases h
    exact ⟨rfl, rfl⟩
  · cases h

/-- A refusal names the two ends, and one of the three conditions fails. -/
theorem ValueDomain.check_eq_error_iff {lower upper : Float} {e : EstimationError} :
    check lower upper = .error e ↔
      e = .invalidBounds lower upper ∧
        ¬ (lower.isFinite = true ∧ upper.isFinite = true ∧ ¬ upper < lower) := by
  unfold check
  split
  · simp [*]
  · rename_i h
    simp only [Except.error.injEq, h, not_false_eq_true, and_true]
    exact eq_comm

end OnlineAggregation
