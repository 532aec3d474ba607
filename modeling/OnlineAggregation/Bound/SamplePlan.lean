import OnlineAggregation.Bound.HalfWidth
import OnlineAggregation.Numeric.WordPower

/-!
# Planning a sample

How many values are needed before the half-width over a domain is at most a target? The formula
solved for the count gives `w² ln (2 / (1 - c)) / (2 ε²)`. The quotient is rounded, so its ceiling
can be too small; from there the count is raised until the half-width itself agrees.
-/

namespace OnlineAggregation

open Numeric (NaturalLog wordSize)

/-! ## §1 Targets -/

/-- A half-width to be reached: finite and positive. -/
structure TargetPrecision where
  value : Float
  finite : value.isFinite = true
  positive : ¬ value ≤ 0.0
deriving DecidableEq

/-- Accepts exactly the finite positive numbers. -/
def TargetPrecision.check (target : Float) : Except EstimationError TargetPrecision :=
  if h : target.isFinite = true ∧ ¬ target ≤ 0.0 then .ok ⟨target, h.1, h.2⟩
  else .error (.invalidPrecision target)

@[simp] theorem TargetPrecision.check_value (t : TargetPrecision) : check t.value = .ok t :=
  dif_pos ⟨t.finite, t.positive⟩

/-- A refusal names the number, which is not both finite and positive. -/
theorem TargetPrecision.check_eq_error_iff {target : Float} {e : EstimationError} :
    check target = .error e ↔
      e = .invalidPrecision target ∧ ¬ (target.isFinite = true ∧ ¬ target ≤ 0.0) := by
  unfold check
  split
  · simp [*]
  · rename_i h
    simp only [Except.error.injEq, h, not_false_eq_true, and_true]
    exact eq_comm

/-! ## §2 Counts -/

/-- The least whole number not below `x`, for `x` from 0 to the end of the 64-bit range. -/
def ceilCount (x : Float) : Nat :=
  -- The conversion drops the fraction.
  let whole := x.toUInt64.toNat
  if Float.ofNat whole < x then whole + 1 else whole

variable [NaturalLog]

/-- The first of `n, n + 1, …, n + fuel` whose half-width is at most the target. -/
def firstSufficient? (level : ConfidenceLevel) (width target : Float) : Nat → Nat → Option Nat
  | fuel, n =>
    if target < level.hoeffding n width then
      match fuel with
      | 0 => none
      | rest + 1 => firstSufficient? level width target rest (n + 1)
    else
      some n

/-- The search finds the first sufficient count of its range. -/
theorem firstSufficient?_eq_some {level : ConfidenceLevel} {width target : Float}
    {fuel n m : Nat} (h : firstSufficient? level width target fuel n = some m) :
    n ≤ m ∧ m ≤ n + fuel ∧ ¬ target < level.hoeffding m width ∧
      ∀ k, n ≤ k → k < m → target < level.hoeffding k width := by
  induction fuel generalizing n with
  | zero =>
    unfold firstSufficient? at h
    split at h
    · cases h
    · cases h
      exact ⟨Nat.le_refl _, Nat.le_refl _, by assumption, fun k hk hlt => by omega⟩
  | succ fuel ih =>
    unfold firstSufficient? at h
    split at h
    · rename_i above
      obtain ⟨low, high, enough, before⟩ := ih h
      refine ⟨by omega, by omega, enough, fun k hk hlt => ?_⟩
      rcases Nat.eq_or_lt_of_le hk with rfl | later
      · exact above
      · exact before k later hlt
    · cases h
      exact ⟨Nat.le_refl _, by omega, by assumption, fun k hk hlt => by omega⟩

/-- The solved formula, in the order in which it is rounded. -/
def estimatedSamples (level : ConfidenceLevel) (width target : Float) : Float :=
  width * width * level.logTerm / (2.0 * target * target)

/-- A sample count whose half-width over the values from `lower` to `upper` is at most `target`. -/
def requiredSamples (confidence lower upper target : Float) : Except EstimationError Nat := do
  let level ← ConfidenceLevel.check confidence
  let domain ← ValueDomain.check lower upper
  let goal ← TargetPrecision.check target
  let estimate := estimatedSamples level domain.width goal.value
  -- Counts that do not fit in 64 bits are out of reach.
  if ¬ estimate.isFinite ∨ Float.ofNat wordSize ≤ estimate then
    .error (.invalidPrecision target)
  else
    -- Rounding can leave the estimate short, so the width is tested from there on.
    let start := max (ceilCount estimate) 1
    match firstSufficient? level domain.width goal.value (wordSize - 1 - start) start with
    | some n => .ok n
    | none => .error (.invalidPrecision target)

end OnlineAggregation
