/-!
# Powers in 64-bit words

Counts fit in 64 bits. A power of two such numbers is a count again only if it is below `2 ^ 64`.
-/

namespace OnlineAggregation.Numeric

/-- How many values a 64-bit word has. -/
def wordSize : Nat := Nat.pow 2 64

/-- `base ^ exponent`, unless it leaves the 64-bit range. -/
def wordPower? (base exponent : Nat) : Option Nat :=
  if base < 2 then
    some (if exponent = 0 then 1 else base)
  -- From base two on an exponent of 64 is too large, and the power is not computed.
  else if exponent < 64 ∧ Nat.pow base exponent < wordSize then
    some (Nat.pow base exponent)
  else
    none

/-- A power is given exactly if it fits in 64 bits. -/
theorem wordPower?_eq_some_iff {base exponent n : Nat} :
    wordPower? base exponent = some n ↔ Nat.pow base exponent = n ∧ n < wordSize := by
  have small : 1 < wordSize := by decide
  unfold wordPower?
  split
  · rename_i h
    have hb : base = 0 ∨ base = 1 := by omega
    rcases hb with rfl | rfl <;> cases exponent <;> simp <;> omega
  · rename_i h
    -- The test of the exponent refuses nothing that the test of the power would let through.
    have tooLarge : 64 ≤ exponent → wordSize ≤ Nat.pow base exponent := fun he =>
      Nat.le_trans (Nat.pow_le_pow_left (Nat.le_of_not_lt h) 64)
        (Nat.pow_le_pow_right (Nat.zero_lt_of_ne_zero (by omega)) he)
    split
    · rename_i fits
      simp only [Option.some.injEq]
      exact ⟨fun equal => ⟨equal, equal ▸ fits.2⟩, fun both => both.1⟩
    · rename_i beyond
      simp only [reduceCtorEq, false_iff]
      rintro ⟨rfl, below⟩
      have := tooLarge (by omega)
      omega

end OnlineAggregation.Numeric
