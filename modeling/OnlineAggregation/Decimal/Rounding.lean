/-!
# Rounding a quotient

A quotient of whole numbers is rounded to the nearest whole number. What happens to a value
exactly between two neighbours is a choice of the format that asks.
-/

namespace OnlineAggregation.Decimal

/-- Where a value halfway between two neighbours goes. -/
inductive Tie where
  | toEven
  | upward
deriving DecidableEq, Repr

/-- Whether a value at `twice / 2` of the way from `low` to `low + 1`, measured in units of
`whole`, goes to the upper neighbour. -/
def Tie.roundsUp (tie : Tie) (low twice whole : Nat) : Bool :=
  if twice = whole then
    match tie with
    | .toEven => low % 2 == 1
    | .upward => true
  else
    decide (whole < twice)

/-- Only a value at least half way goes up. -/
theorem Tie.le_of_roundsUp {tie : Tie} {low twice whole : Nat}
    (h : tie.roundsUp low twice whole = true) : whole ≤ twice := by
  unfold roundsUp at h
  split at h
  · omega
  · exact Nat.le_of_lt (of_decide_eq_true h)

/-- Only a value at most half way stays down. -/
theorem Tie.le_of_not_roundsUp {tie : Tie} {low twice whole : Nat}
    (h : ¬ tie.roundsUp low twice whole = true) : twice ≤ whole := by
  unfold roundsUp at h
  split at h
  · omega
  · simp only [decide_eq_true_eq] at h
    omega

/-- The whole number nearest to `num / den`. -/
def roundDiv (tie : Tie) (num den : Nat) : Nat :=
  let low := num / den
  if tie.roundsUp low (2 * (num % den)) den then low + 1 else low

/-- The rounded quotient is within half a unit of the exact one, on either side. -/
theorem roundDiv_within_half (tie : Tie) (num : Nat) {den : Nat} (hden : 0 < den) :
    2 * (roundDiv tie num den * den) ≤ 2 * num + den ∧
      2 * num ≤ 2 * (roundDiv tie num den * den) + den := by
  have whole := Nat.div_add_mod num den
  have part := Nat.mod_lt num hden
  have commute : num / den * den = den * (num / den) := Nat.mul_comm _ _
  show 2 * ((if tie.roundsUp (num / den) (2 * (num % den)) den then num / den + 1
      else num / den) * den) ≤ _ ∧ _ ≤ 2 * ((if tie.roundsUp (num / den) (2 * (num % den)) den
      then num / den + 1 else num / den) * den) + _
  split
  · rename_i up
    have := Tie.le_of_roundsUp up
    rw [Nat.add_mul, Nat.one_mul]
    omega
  · rename_i down
    have := Tie.le_of_not_roundsUp down
    omega

end OnlineAggregation.Decimal
