import OnlineAggregation.Numeric.Exponential

/-!
# The error function and the normal distribution

`erf` is approximated by one quotient of polynomials on each of five ranges of `|x|`. It enters
`normalProbability` as an instance, as the logarithm does, so that a statement about coverage can
name what it uses of `erf`.
-/

namespace OnlineAggregation.Numeric

/-! ## §1 Coefficients -/

/-- Numerator below `27/32`. -/
def centralNumerator : List Float :=
  [ Float.ofBits 0x3fc06eba8214db68, Float.ofBits 0xbfd4cd7d691cb913,
    Float.ofBits 0xbf9d2a51dbd7194f, Float.ofBits 0xbf77a291236668e4,
    Float.ofBits 0xbef8ead6120016ac ]

/-- Denominator below `27/32`. -/
def centralDenominator : List Float :=
  [ 1.0, Float.ofBits 0x3fd97779cddadc09, Float.ofBits 0x3fb0a54c5536ceba,
    Float.ofBits 0x3f74d022c4d36b0f, Float.ofBits 0x3f215dc9221c1a10,
    Float.ofBits 0xbed09c4342a26120 ]

/-- Numerator on `27/32 ≤ |x| < 5/4`. -/
def middleNumerator : List Float :=
  [ Float.ofBits 0xbf6359b8bef77538, Float.ofBits 0x3fda8d00ad92b34d,
    Float.ofBits 0xbfd7d240fbb8c3f1, Float.ofBits 0x3fd45fca805120e4,
    Float.ofBits 0xbfbc63983d3e28ec, Float.ofBits 0x3fa22a36599795eb,
    Float.ofBits 0xbf61bf380a96073f ]

/-- Denominator on `27/32 ≤ |x| < 5/4`. -/
def middleDenominator : List Float :=
  [ 1.0, Float.ofBits 0x3fbb3e6618eee323, Float.ofBits 0x3fe14af092eb6f33,
    Float.ofBits 0x3fb2635cd99fe9a7, Float.ofBits 0x3fc02660e763351f,
    Float.ofBits 0x3f8bedc26b51dd1c, Float.ofBits 0x3f888b545735151d ]

/-- Numerator on `5/4 ≤ |x| < 1 / 0.35`. -/
def outerNumerator : List Float :=
  [ Float.ofBits 0xbf843412600d6435, Float.ofBits 0xbfe63416e4ba7360,
    Float.ofBits 0xc0251e0441b0e726, Float.ofBits 0xc04f300ae4cba38d,
    Float.ofBits 0xc0644cb184282266, Float.ofBits 0xc067135cebccabb2,
    Float.ofBits 0xc054526557e4d2f2, Float.ofBits 0xc023a0efc69ac25c ]

/-- Denominator on `5/4 ≤ |x| < 1 / 0.35`. -/
def outerDenominator : List Float :=
  [ 1.0, Float.ofBits 0x4033a6b9bd707687, Float.ofBits 0x4061350c526ae721,
    Float.ofBits 0x407b290dd58a1a71, Float.ofBits 0x40842b1921ec2868,
    Float.ofBits 0x407ad02157700314, Float.ofBits 0x405b28a3ee48ae2c,
    Float.ofBits 0x401a47ef8e484a93, Float.ofBits 0xbfaeeff2ee749a62 ]

/-- Numerator on `1 / 0.35 ≤ |x| < 6`. -/
def tailNumerator : List Float :=
  [ Float.ofBits 0xbf84341239e86f4a, Float.ofBits 0xbfe993ba70c285de,
    Float.ofBits 0xc031c209555f995a, Float.ofBits 0xc064145d43c5ed98,
    Float.ofBits 0xc083ec881375f228, Float.ofBits 0xc09004616a2e5992,
    Float.ofBits 0xc07e384e9bdc383f ]

/-- Denominator on `1 / 0.35 ≤ |x| < 6`. -/
def tailDenominator : List Float :=
  [ 1.0, Float.ofBits 0x403e568b261d5190, Float.ofBits 0x40745cae221b9f0a,
    Float.ofBits 0x409802eb189d5118, Float.ofBits 0x40a8ffb7688c246a,
    Float.ofBits 0x40a3f219cedf3be6, Float.ofBits 0x407da874e79fe763,
    Float.ofBits 0xc03670e242712d62 ]

/-- `erf 1`, the expansion point of the middle range, to single precision. -/
def erfAtOne : Float := Float.ofBits 0x3feb0ac160000000

/-- `8 (2 / √π - 1)`, for arguments so small that `erf` is linear. -/
def slopeExcess : Float := Float.ofBits 0x3ff06eba8214db69

/-! ## §2 The function by ranges -/

/-- `1 - erf |x|` on `27/32 ≤ |x| < 6`. -/
def complement (x : Float) : Float :=
  let size := magnitudeBits x
  if size < 0x3ff40000 then
    let s := x.abs - 1.0
    (1.0 - erfAtOne) - horner middleNumerator s / horner middleDenominator s
  else
    let a := x.abs
    let s := 1.0 / (a * a)
    let quotient :=
      if size < 0x4006db6d then horner outerNumerator s / horner outerDenominator s
      else horner tailNumerator s / horner tailDenominator s
    -- With half the bits of `a` its square is exact, so the large part of the exponent is.
    let z := Float.ofBits (a.toBits &&& 0xffffffff00000000)
    exp (-z * z - 0.5625) * exp ((z - a) * (z + a) + quotient) / a

/-- The error function by rational approximation. -/
def rationalErf (x : Float) : Float :=
  let size := magnitudeBits x
  let signed (y : Float) : Float := if upperBits x ≥ 0x80000000 then -y else y
  if size ≥ 0x7ff00000 then
    if x.isNaN then x else signed 1.0
  else if size < 0x3e300000 then
    0.125 * (8.0 * x + slopeExcess * x)
  else if size < 0x3feb0000 then
    let z := x * x
    x + x * (horner centralNumerator z / horner centralDenominator z)
  else if size < 0x40180000 then
    signed (1.0 - complement x)
  else
    -- From six on no binary64 number is nearer than one.
    signed 1.0

/-! ## §3 The normal distribution -/

/-- An error function on binary64 numbers. -/
class ErrorFunction where
  /-- The probability of `|X| ≤ x √2` for a standard normal `X`, odd in `x`. -/
  erf : Float → Float

export ErrorFunction (erf)

instance : ErrorFunction where
  erf := rationalErf

/-- The distribution function of the standard normal distribution. -/
def normalProbability [ErrorFunction] (a : Float) : Float :=
  0.5 * (1.0 + erf (a / Float.sqrt 2.0))

end OnlineAggregation.Numeric
