/-!
# Binary numbers, exactly

A binary64 number is a NaN, an infinity, or `± mantissa · 2 ^ exponent`. Writing a number in
decimal starts from this form, in natural and integer arithmetic only.
-/

namespace OnlineAggregation.Decimal

/-- The size `mantissa · 2 ^ exponent` of a finite number. -/
structure Magnitude where
  /-- The significand as a whole number, below `2 ^ 53`. -/
  mantissa : Nat
  /-- The exponent of its last bit. -/
  exponent : Int
deriving DecidableEq, Repr

namespace Magnitude

/-- Whether the next smaller number is only half as far away as the next larger one. -/
def isStepDown (v : Magnitude) : Bool :=
  -- So it is at the powers of two above the subnormal range.
  v.mantissa = Nat.pow 2 52 && v.exponent > -1074

/-- An exact quotient equal to `v`: numerator and denominator. -/
def quotient (v : Magnitude) : Nat × Nat :=
  (v.mantissa * Nat.pow 2 v.exponent.toNat, Nat.pow 2 (-v.exponent).toNat)

end Magnitude

/-- What a binary64 number stands for. -/
inductive Binary where
  | nan
  /-- An infinity of the given sign. -/
  | infinite (negative : Bool)
  /-- A finite number of the given sign; zero has two signs. -/
  | finite (negative : Bool) (size : Magnitude)
deriving DecidableEq, Repr

namespace Binary

/-- Reads the bit pattern of `x`. -/
def ofFloat (x : Float) : Binary :=
  let bits := x.toBits.toNat
  let fraction := bits % Nat.pow 2 52
  let biased := bits / Nat.pow 2 52 % Nat.pow 2 11
  let negative := bits / Nat.pow 2 63 == 1
  if biased = 2047 then
    if fraction = 0 then .infinite negative else .nan
  else if biased = 0 then
    -- A subnormal number has no leading bit of its own.
    .finite negative ⟨fraction, -1074⟩
  else
    .finite negative ⟨fraction + Nat.pow 2 52, Int.ofNat biased - 1075⟩

end Binary

end OnlineAggregation.Decimal
