import OnlineAggregation.Json.Fault
import OnlineAggregation.Numeric.WordPower

/-!
# Numbers in JSON texts

A number is read into a significand of at most 64 bits and a power of ten. Digits that would make
the significand too large are not taken: in the integer part they only raise the power, in the
fraction they are dropped. The value is the significand as a binary64 number, multiplied or divided
by a power of ten; each of these steps rounds, so the last bit need not be that of the nearest
number.
-/

namespace OnlineAggregation.Json

open Numeric (wordSize)

/-! ## §1 Digits -/

def digit? (c : Char) : Option Nat :=
  if '0' ≤ c ∧ c ≤ '9' then some (c.toNat - 48) else none

def startsWithDigit : List Char → Bool
  | c :: _ => (digit? c).isSome
  | [] => false

/-- How many digits a text starts with. -/
def digitCount (cs : List Char) : Nat :=
  (cs.takeWhile fun c => (digit? c).isSome).length

def dropDigits (cs : List Char) : List Char :=
  cs.dropWhile fun c => (digit? c).isSome

/-- Leading digits taken into a significand. -/
structure Taken where
  significand : Nat
  count : Nat
  rest : List Char

/-- Takes leading digits into a significand, as long as it fits in 64 bits. -/
def takeDigits (significand : Nat) : List Char → Taken
  | [] => ⟨significand, 0, []⟩
  | c :: cs =>
    match digit? c with
    | none => ⟨significand, 0, c :: cs⟩
    | some d =>
      let next := significand * 10 + d
      if next < wordSize then
        let taken := takeDigits next cs
        { taken with count := taken.count + 1 }
      else
        ⟨significand, 0, c :: cs⟩

/-- The whole number that a text of digits goes on with, added to the digits before it. -/
def wholeNumber (before : Nat) : List Char → Nat
  | [] => before
  | c :: cs =>
    match digit? c with
    | some d => wholeNumber (before * 10 + d) cs
    | none => before

/-! ## §2 Powers of ten -/

/-- The binary64 number nearest to `10 ^ k`. -/
def powerOfTen (k : Nat) : Float :=
  OfScientific.ofScientific 1 false k

/-- Scales `f` by a power of ten. -/
def scaleBy : Nat → Float → Int → Except Fault Float
  | fuel, f, e =>
    if e.natAbs ≤ 308 then
      if 0 ≤ e then
        let scaled := f * powerOfTen e.natAbs
        if scaled.isInf then malformed .numberOutOfRange else .ok scaled
      else
        .ok (f / powerOfTen e.natAbs)
    else if f == 0.0 then .ok f
    else if 0 ≤ e then malformed .numberOutOfRange
    -- `10 ^ 308` is the last power there is, so smaller results are reached in several steps.
    else
      match fuel with
      | 0 => .ok f
      | fuel + 1 => scaleBy fuel (f / powerOfTen 308) (e + 308)

/-- The value `± significand · 10 ^ e`, each step rounded. -/
def decimalValue (negative : Bool) (significand : Nat) (e : Int) : Except Fault Float := do
  let f ← scaleBy e.natAbs (Float.ofNat significand) e
  pure (if negative then -f else f)

/-! ## §3 The parts of a number -/

/-- The greatest exponent that is taken at its value. -/
def greatestExponent : Nat := Nat.pow 2 31 - 1

/-- Splits off the sign of an exponent; `true` is minus. -/
def exponentSign : List Char → Bool × List Char
  | '+' :: cs => (false, cs)
  | '-' :: cs => (true, cs)
  | cs => (false, cs)

/-- Reads the exponent after its mark and gives the value of the number. -/
def readExponent (negative : Bool) (significand : Nat) (e : Int) (cs : List Char) :
    Except Fault (Number × List Char) :=
  let (down, cs) := exponentSign cs
  match cs with
  | [] => unfinished .value
  | c :: _ =>
    if (digit? c).isNone then malformed .invalidNumber
    else
      let size := wholeNumber 0 cs
      if greatestExponent < size then
        -- Too large for every significand but zero, or as good as zero.
        if significand ≠ 0 ∧ ¬ down then malformed .numberOutOfRange
        else .ok (.float (if negative then -0.0 else 0.0), dropDigits cs)
      else do
        let x ← decimalValue negative significand (if down then e - size else e + size)
        pure (.float x, dropDigits cs)

/-- Reads what follows the digits before and after the point. -/
def readTail (negative : Bool) (significand : Nat) (e : Int) (cs : List Char) :
    Except Fault (Number × List Char) :=
  match cs with
  | 'e' :: cs => readExponent negative significand e cs
  | 'E' :: cs => readExponent negative significand e cs
  | cs => do
    let x ← decimalValue negative significand e
    pure (.float x, cs)

/-- Reads the digits after the point, of which there has to be one. -/
def readFraction (negative : Bool) (significand : Nat) (e : Int) (cs : List Char) :
    Except Fault (Number × List Char) :=
  let taken := takeDigits significand cs
  let e := e - taken.count
  if startsWithDigit taken.rest then
    -- The significand is full, and further places are dropped.
    readTail negative taken.significand e (dropDigits taken.rest)
  else if taken.count = 0 then
    match taken.rest with
    | [] => unfinished .value
    | _ => malformed .invalidNumber
  else
    readTail negative taken.significand e taken.rest

/-- A number without point and exponent, as a whole number if it fits in 64 bits. -/
def integer (negative : Bool) (significand : Nat) : Number :=
  if ¬ negative then .natural significand
  else if 1 ≤ significand ∧ significand ≤ Nat.pow 2 63 then .negative significand
  else .float (-Float.ofNat significand)

/-- Reads a number after its sign. -/
def readNumber (negative : Bool) (cs : List Char) : Except Fault (Number × List Char) :=
  match cs with
  | [] => unfinished .value
  | c :: rest =>
    if (digit? c).isNone ∨ (c = '0' ∧ startsWithDigit rest) then malformed .invalidNumber
    else
      let taken := takeDigits 0 cs
      -- Digits that no longer fit count as factors of ten.
      let beyond := digitCount taken.rest
      match dropDigits taken.rest with
      | '.' :: cs => readFraction negative taken.significand beyond cs
      | cs =>
        if beyond = 0 ∧ ¬ (cs.head? = some 'e' ∨ cs.head? = some 'E') then
          .ok (integer negative taken.significand, cs)
        else
          readTail negative taken.significand beyond cs

/-! ## §4 Skipping a number -/

def skipDigits (cs : List Char) : Except Fault (List Char) :=
  if startsWithDigit cs then .ok (dropDigits cs) else malformed .invalidNumber

def skipExponent : List Char → Except Fault (List Char)
  | 'e' :: cs => skipDigits (exponentSign cs).2
  | 'E' :: cs => skipDigits (exponentSign cs).2
  | cs => .ok cs

/-- Goes past a number after its sign, whatever its size. -/
def skipNumber (cs : List Char) : Except Fault (List Char) := do
  let cs ←
    match cs with
    | '0' :: rest => if startsWithDigit rest then malformed .invalidNumber else pure rest
    | cs => skipDigits cs
  match cs with
  | '.' :: cs => skipDigits cs >>= skipExponent
  | cs => skipExponent cs

end OnlineAggregation.Json
