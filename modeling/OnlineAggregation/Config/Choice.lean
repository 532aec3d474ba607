import OnlineAggregation.Config.Settings
import OnlineAggregation.Mean.Aggregator

/-!
# Choices of a bound

A choice is a kind of bound with its parameters, as a user wrote them: nothing is checked before an
aggregator is built from it.
-/

namespace OnlineAggregation.Config

open Json (Row Value)
open Numeric (NaturalLog)

/-! ## §1 Parameters -/

/-- Parameters of a large-sample bound. -/
structure LargeSampleParams where
  confidence : Float
  lower : Option Float
  upper : Option Float
deriving DecidableEq

/-- Parameters of a conservative bound. -/
structure ConservativeParams where
  confidence : Float
  lower : Float
  upper : Float
deriving DecidableEq

/-- Parameters of a deterministic bound. -/
structure DeterministicParams where
  confidence : Float
  lower : Float
  upper : Float
  plannedSamples : Nat
deriving DecidableEq

/-- A kind of bound with its parameters. -/
inductive Choice where
  | largeSample (params : LargeSampleParams)
  | conservative (params : ConservativeParams)
  | deterministic (params : DeterministicParams)
deriving DecidableEq

namespace Choice

def kind : Choice → Kind
  | largeSample _ => .largeSample
  | conservative _ => .conservative
  | deterministic _ => .deterministic

/-! ## §2 Rows -/

/-- The choice of a kind with given parameters. -/
def ofRow : (k : Kind) → Row k.fields → Choice
  | .largeSample, (confidence, lower, upper, ()) => largeSample { confidence, lower, upper }
  | .conservative, (confidence, lower, upper, ()) => conservative { confidence, lower, upper }
  | .deterministic, (confidence, lower, upper, plannedSamples, ()) =>
    deterministic { confidence, lower, upper, plannedSamples }

def toRow : (c : Choice) → Row c.kind.fields
  | largeSample p => (p.confidence, p.lower, p.upper, ())
  | conservative p => (p.confidence, p.lower, p.upper, ())
  | deterministic p => (p.confidence, p.lower, p.upper, p.plannedSamples, ())

@[simp] theorem ofRow_toRow (c : Choice) : ofRow c.kind c.toRow = c := by
  cases c <;> rfl

/-- A choice made from a row is of the kind that was asked for. -/
@[simp] theorem kind_ofRow (k : Kind) (row : Row k.fields) : (ofRow k row).kind = k := by
  cases k <;> rfl

/-- The choice of a kind with all parameters left out. -/
def defaultFor (k : Kind) : Choice :=
  ofRow k (defaults k.settings)

/-- The choice of whoever makes none. -/
def default : Choice :=
  defaultFor .conservative

/-! ## §3 Comparing and writing -/

/-- Numerical equality of what may be missing. -/
def sameOption : Option Float → Option Float → Bool
  | none, none => true
  | some x, some y => x == y
  | _, _ => false

/-- Numerical equality of choices: NaN equals nothing, and the two zeros are equal. -/
def agrees : Choice → Choice → Bool
  | largeSample p, largeSample q =>
    p.confidence == q.confidence && sameOption p.lower q.lower && sameOption p.upper q.upper
  | conservative p, conservative q =>
    p.confidence == q.confidence && p.lower == q.lower && p.upper == q.upper
  | deterministic p, deterministic q =>
    p.confidence == q.confidence && p.lower == q.lower && p.upper == q.upper &&
      p.plannedSamples == q.plannedSamples
  | _, _ => false

/-- Whether a choice has the default parameters of its kind. -/
def isDefault (c : Choice) : Bool :=
  c.agrees (defaultFor c.kind)

/-- The object of a choice: its kind, and its parameters beside it. -/
def toValue (c : Choice) : Value :=
  .object [("type", .string c.kind.name), ("params", Row.toValue c.kind.fields c.toRow)]

/-! ## §4 Building -/

/-- Checks the parameters and builds the aggregator. -/
def build [NaturalLog] : Choice → Except EstimationError Aggregator
  | largeSample { confidence, lower := some lower, upper := some upper } =>
    Aggregator.largeSampleWithin confidence lower upper
  | largeSample { confidence, lower := none, upper := none } =>
    Aggregator.largeSample confidence
  | largeSample { lower, upper, .. } =>
    -- A domain has both ends or none; the missing one is reported as NaN.
    .error (.invalidBounds (lower.getD Numeric.nan) (upper.getD Numeric.nan))
  | conservative p => Aggregator.conservative p.confidence p.lower p.upper
  | deterministic p =>
    Aggregator.deterministicAt p.confidence p.lower p.upper p.plannedSamples

end Choice

end OnlineAggregation.Config
