import OnlineAggregation.Numeric.WordPower

/-!
# Report schedules

A schedule says after which counts of values an estimate is worth keeping: every so many, or at the
powers of a base.
-/

namespace OnlineAggregation

open Numeric (wordPower?)

/-- Which counts are due. -/
inductive Schedule where
  /-- The multiples of `step`; a step of 0 counts as 1. -/
  | every (step : Nat)
  /-- The powers of `base`; a base below 2 counts as 2. -/
  | geometric (base : Nat)
deriving DecidableEq, Repr

namespace Schedule

/-- Every count is due. -/
def default : Schedule :=
  .every 1

/-- The powers of `base` that are counts, in order. -/
def powers (base : Nat) : List Nat :=
  -- From base two on no higher power fits in 64 bits.
  (List.range 64).filterMap (wordPower? base)

/-- Whether a count is due. Zero never is. -/
def isDue : Schedule → Nat → Bool
  -- Zero is a multiple of every step, so it is left out by hand.
  | every step, count => count ≠ 0 && count % max step 1 == 0
  | geometric base, count => (powers (max base 2)).contains count

/-- The counts from `first` to `last` that are due. -/
def dueBetween (s : Schedule) (first last : Nat) : List Nat :=
  (List.range' first (last + 1 - first)).filter s.isDue

@[simp] theorem isDue_zero (s : Schedule) : s.isDue 0 = false := by
  cases s with
  | every step => rfl
  | geometric base =>
    simp only [isDue, powers, List.contains_eq_mem, List.mem_filterMap, decide_eq_false_iff_not,
      Numeric.wordPower?_eq_some_iff, not_exists, not_and]
    intro exponent _ hpower _
    exact absurd hpower (Nat.ne_of_gt (Nat.pow_pos (show 0 < max base 2 by omega)))

/-- Exactly the multiples of the step from the step on are due. -/
theorem isDue_every_iff {step count : Nat} :
    (every step).isDue count = true ↔ count ≠ 0 ∧ max step 1 ∣ count := by
  simp [isDue, Nat.dvd_iff_mod_eq_zero]

end Schedule

end OnlineAggregation
