/-!
# The exponential function

`exp x` for moderate `x`, in binary64 arithmetic throughout. The argument is reduced to
`x - k · ln 2` with `|x - k · ln 2| ≤ ln 2 / 2`, a rational approximation answers there, and the
answer is scaled by `2 ^ k`. The result is a plain definition, so it can be evaluated and reasoned
about.
-/

namespace OnlineAggregation.Numeric

/-! ## §1 Reading and building bit patterns -/

/-- The upper 32 bits of the pattern of `x`: sign, exponent and the leading fraction bits. -/
def upperBits (x : Float) : UInt64 :=
  x.toBits >>> 32

/-- `upperBits` without the sign, which orders numbers by their size. -/
def magnitudeBits (x : Float) : UInt64 :=
  upperBits x &&& 0x7fffffff

/-- The number `2 ^ k`, for `k` in the range of normal exponents. -/
def powerOfTwo (k : Int) : Float :=
  Float.ofBits (UInt64.ofNat (1023 + k).toNat <<< 52)

/-- The integer part of `x`, rounding towards zero. -/
def truncate (x : Float) : Int :=
  if x < 0.0 then -Int.ofNat (-x).toUInt64.toNat else Int.ofNat x.toUInt64.toNat

/-- Evaluates `c₀ + z (c₁ + z (… + z cₙ))`, innermost bracket first. -/
def horner : List Float → Float → Float
  | [], _ => 0.0
  | [c], _ => c
  | c :: cs, z => c + z * horner cs z

/-! ## §2 Argument reduction -/

/-- The leading bits of `ln 2`, few enough that their small multiples are exact. -/
def lnTwoHigh : Float := Float.ofBits 0x3fe62e42fee00000

/-- What `lnTwoHigh` leaves of `ln 2`. -/
def lnTwoLow : Float := Float.ofBits 0x3dea39ef35793c76

/-- `1 / ln 2`. -/
def invLnTwo : Float := Float.ofBits 0x3ff71547652b82fe

/-- An argument `x` as `k · ln 2 + (high - low)`. -/
structure Reduced where
  /-- The multiple of `ln 2` that was taken away. -/
  shift : Int
  /-- The leading part of the remainder. -/
  high : Float
  /-- The correction to the remainder. -/
  low : Float

/-- Takes the nearest multiple of `ln 2` from `x`. -/
def reduce (x : Float) : Reduced :=
  let size := magnitudeBits x
  -- Nothing is taken from `|x| ≤ ln 2 / 2`, and exactly one `ln 2` below `3/2 · ln 2`.
  if size > 0x3fd62e42 then
    let shift : Int :=
      if size ≥ 0x3ff0a2b2 then
        truncate (invLnTwo * x + (if x < 0.0 then -0.5 else 0.5))
      else if x < 0.0 then -1 else 1
    { shift, high := x - Float.ofInt shift * lnTwoHigh, low := Float.ofInt shift * lnTwoLow }
  else
    { shift := 0, high := x, low := 0.0 }

/-! ## §3 Evaluation -/

/-- The coefficients of the approximation around zero, from the lowest power up. -/
def expCoefficients : List Float :=
  [ Float.ofBits 0x3fc555555555553e, Float.ofBits 0xbf66c16c16bebd93,
    Float.ofBits 0x3f11566aaf25de2c, Float.ofBits 0xbebbbd41c5d26bf1,
    Float.ofBits 0x3e66376972bea4d0 ]

/-- `e ^ x`, for `x` small enough that the result is a normal number. -/
def exp (x : Float) : Float :=
  if magnitudeBits x > 0x3e300000 then
    let r := reduce x
    let t := r.high - r.low
    let square := t * t
    let c := t - square * horner expCoefficients square
    (1.0 + (t * c / (2.0 - c) - r.low + r.high)) * powerOfTwo r.shift
  else
    -- Below `2 ^ -28` the square of `x` is lost beside one.
    1.0 + x

end OnlineAggregation.Numeric
