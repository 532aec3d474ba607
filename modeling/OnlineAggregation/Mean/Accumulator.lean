import OnlineAggregation.Bound.Domain
import OnlineAggregation.Numeric.ErrorFunction
import OnlineAggregation.Numeric.NonFinite

/-!
# Running means

An accumulator summarises the values folded into it: how many there are, their mean, the sum of
their squared deviations from the mean, and their range. A further value updates all five in
constant time, by Welford's recurrence. The recurrence is stated over any number type, so that it
can be run in binary64 arithmetic and compared with exact arithmetic.
-/

namespace OnlineAggregation

/-- Counts enter binary64 arithmetic as the nearest number. -/
instance instNatCastFloat : NatCast Float where
  natCast := Float.ofNat

/-- A summary of one or more values. -/
structure Accumulator (α : Type) where
  count : Nat
  mean : α
  /-- The sum of their squared deviations from the mean. -/
  squares : α
  least : α
  greatest : α
deriving DecidableEq

namespace Accumulator

/-! ## §1 The recurrence over any number type -/

section Recurrence

variable {α : Type} [NatCast α] [Add α] [Sub α] [Mul α] [Div α] [LT α] [DecidableLT α]

/-- The summary of one value. -/
def single (x : α) : Accumulator α :=
  { count := 1, mean := x, squares := ((0 : Nat) : α), least := x, greatest := x }

/-- The summary with one more value. -/
def insert (a : Accumulator α) (x : α) : Accumulator α :=
  let count := a.count + 1
  let delta := x - a.mean
  let mean := a.mean + delta / (count : α)
  { count, mean
    -- The product of the distances from the mean before and after it moved.
    squares := a.squares + delta * (x - mean)
    -- An end stays only if it lies strictly beyond `x`: of equal values it is the last.
    least := if a.least < x then a.least else x
    greatest := if x < a.greatest then a.greatest else x }

@[simp] theorem count_insert (a : Accumulator α) (x : α) : (a.insert x).count = a.count + 1 :=
  rfl

/-- The sum of the values, recovered from their mean. -/
def sum (a : Accumulator α) : α :=
  a.mean * (a.count : α)

/-- The unbiased variance of the values, zero for fewer than two. -/
def variance (a : Accumulator α) : α :=
  if a.count < 2 then ((0 : Nat) : α) else a.squares / ((a.count - 1 : Nat) : α)

/-- The summary of a first value and those after it. -/
def ofValues (first : α) (others : List α) : Accumulator α :=
  others.foldl insert (single first)

theorem count_ofValues (first : α) (others : List α) :
    (ofValues first others).count = others.length + 1 := by
  have counted : ∀ (xs : List α) (a : Accumulator α),
      (xs.foldl insert a).count = a.count + xs.length := by
    intro xs
    induction xs with
    | nil => intro a; rfl
    | cons x xs ih => intro a; simp [ih]; omega
  rw [ofValues, counted, Nat.add_comm]
  rfl

end Recurrence

/-! ## §2 Observations -/

/-- Starts a summary with `v`, which has to be finite. -/
def seed (v : Float) : Except EstimationError (Accumulator Float) :=
  if v.isFinite then .ok (single v) else .error (.nonFiniteValue v)

/-- Adds `v`, which has to be finite. -/
def push (a : Accumulator Float) (v : Float) : Except EstimationError (Accumulator Float) :=
  if v.isFinite then .ok (a.insert v) else .error (.nonFiniteValue v)

/-- Adds the values in turn, up to the first that is refused. -/
def pushAll (a : Accumulator Float) (vs : List Float) :
    Except EstimationError (Accumulator Float) :=
  vs.foldlM push a

/-- Starts a summary, or goes on with one. -/
def extend : Option (Accumulator Float) → Float → Except EstimationError (Accumulator Float)
  | none, v => seed v
  | some a, v => a.push v

/-- A value is refused exactly if it is not finite, and then it is named. -/
theorem extend_eq_error_iff {a : Option (Accumulator Float)} {v : Float} {e : EstimationError} :
    extend a v = .error e ↔ v.isFinite = false ∧ e = .nonFiniteValue v := by
  cases a <;> cases h : v.isFinite <;> simp [extend, seed, push, h, eq_comm]

/-- Numerical equality of all five parts: NaN agrees with nothing, and the two zeros agree. -/
def agrees (a b : Accumulator Float) : Bool :=
  a.count == b.count && a.mean == b.mean && a.squares == b.squares && a.least == b.least &&
    a.greatest == b.greatest

def observedRange (a : Accumulator Float) : ValueRange :=
  (ValueRange.point a.least).widen a.greatest

/-- The estimated standard error of the mean. -/
def stdError (a : Accumulator Float) : Float :=
  Float.sqrt (a.variance / Float.ofNat a.count)

/-- The probability that the mean is within `epsilon` of its expectation if it is normally
distributed with the observed spread. -/
def normalCoverage [Numeric.ErrorFunction] (a : Accumulator Float) (epsilon : Float) : Float :=
  let spread := a.stdError
  -- Without spread there is no such distribution.
  if spread ≤ 0.0 then Numeric.nan
  else 2.0 * Numeric.normalProbability (epsilon / spread) - 1.0

end Accumulator

end OnlineAggregation
