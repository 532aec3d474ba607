import OnlineAggregation.Decimal.Shortest

/-!
# Numbers in text

A number is written either with its shortest digits in one of several layouts, or with a fixed
count of places after the point. A layout is a record of the choices that are left once the digits
are known.
-/

namespace OnlineAggregation.Decimal

/-! ## §1 Layouts -/

/-- How a number with known digits is laid out. -/
structure Layout where
  /-- Which of two equally near shortest decimals is taken. -/
  tie : Tie
  /-- The exponents of the leading digit that are written without an exponent mark; all of them
  if there is no such range. -/
  positional : Option (Int × Int)
  /-- Whether a whole number ends in `.0`. -/
  pointOnWhole : Bool
  /-- What stands between the exponent mark and an exponent that is not negative. -/
  plusSign : String
  nan : String
  infinity : Bool → String

/-- Whether a leading digit of this exponent is written without an exponent mark. -/
def Layout.isPositional (l : Layout) (leading : Int) : Bool :=
  match l.positional with
  | none => true
  | some (least, greatest) => least ≤ leading && leading ≤ greatest

def zeros (n : Nat) : String :=
  String.ofList (List.replicate n '0')

/-- Digits of a whole number with the point put before the last `places` of them. -/
def withPoint (digits : String) (places : Nat) : String :=
  -- At least one digit stands before the point.
  let padded := zeros (places + 1 - digits.length) ++ digits
  let cut := padded.length - places
  let cs := padded.toList
  String.ofList (cs.take cut) ++ "." ++ String.ofList (cs.drop cut)

/-- The digits without an exponent mark. -/
def Layout.plain (l : Layout) (digits : String) (exponent : Int) : String :=
  if 0 ≤ exponent then
    digits ++ zeros exponent.toNat ++ (if l.pointOnWhole then ".0" else "")
  else
    withPoint digits (-exponent).toNat

/-- One digit, the point and the other digits, and the exponent of the leading digit. -/
def Layout.scientific (l : Layout) (digits : String) (leading : Int) : String :=
  let body := if digits.length = 1 then digits else withPoint digits (digits.length - 1)
  let mark := if 0 ≤ leading then "e" ++ l.plusSign else "e"
  body ++ mark ++ toString leading

/-- Writes `x` with its shortest digits. -/
def Layout.write (l : Layout) (x : Float) : String :=
  match Binary.ofFloat x with
  | .nan => l.nan
  | .infinite negative => l.infinity negative
  | .finite negative size =>
    let s := shortest size l.tie
    let digits := toString s.coefficient
    let leading := s.exponent + Int.ofNat digits.length - 1
    (if negative then "-" else "") ++
      (if l.isPositional leading then l.plain digits s.exponent else l.scientific digits leading)

def infinityText (negative : Bool) : String :=
  if negative then "-inf" else "inf"

/-- Running text: never an exponent, and whole numbers without a point. -/
def Layout.message : Layout :=
  { tie := .upward, positional := none, pointOnWhole := false, plusSign := "",
    nan := "NaN", infinity := infinityText }

/-- Inspected values: whole numbers are marked by `.0`, and very small or very large numbers have
an exponent. -/
def Layout.inspect : Layout :=
  { tie := .upward, positional := some (-4, 15), pointOnWhole := true, plusSign := "",
    nan := "NaN", infinity := infinityText }

/-- JSON: as inspected values, but with a sign on every exponent, and `null` for what JSON has no
number for. -/
def Layout.json : Layout :=
  { tie := .toEven, positional := some (-5, 15), pointOnWhole := true, plusSign := "+",
    nan := "null", infinity := fun _ => "null" }

/-! ## §2 Fixed places -/

/-- Writes `x` with exactly `places` digits after the point, the nearest such number to the exact
value of `x`, ties to even. -/
def fixed (places : Nat) (x : Float) : String :=
  match Binary.ofFloat x with
  | .nan => "NaN"
  | .infinite negative => infinityText negative
  | .finite negative size =>
    let (num, den) := size.quotient
    let digits := toString (roundDiv .toEven (num * Nat.pow 10 places) den)
    -- The sign stays even if only zeros are left.
    (if negative then "-" else "") ++
      (if places = 0 then digits else withPoint digits places)

end OnlineAggregation.Decimal
