import OnlineAggregation.Bound.Strategy
import OnlineAggregation.Mean.Estimate

/-!
# Events of an aggregation

What happens while values are folded is told as a list of events. An event has a level and a text;
a reader who asks for a level sees the events up to it.
-/

namespace OnlineAggregation

open Decimal (Layout)

/-- How much detail an event is, from the gravest down. -/
inductive Level where
  | error
  | warn
  | info
  | debug
  | trace
deriving DecidableEq, Repr

namespace Level

/-- The place of a level, counted from the gravest. -/
def rank : Level → Nat
  | error => 1
  | warn => 2
  | info => 3
  | debug => 4
  | trace => 5

/-- The name of a level at the start of a line. -/
def name : Level → String
  | error => "ERROR"
  | warn => "WARN"
  | info => "INFO"
  | debug => "DEBUG"
  | trace => "TRACE"

end Level

/-- Something worth telling about an aggregation. -/
inductive Event where
  | created (strategy : Strategy) (confidence : Float)
  /-- An observation lies outside the declared domain, so the half-width is no longer certain. -/
  | outsideDomain (value : Float) (domain : ValueDomain) (strategy : Strategy)
  /-- An observation was folded, the `number`-th of its aggregation. -/
  | folded (number : Nat) (value mean : Float) (epsilon : Option Float)
  /-- A run has an estimate with a half-width within its target. -/
  | targetReached (target : Float) (estimate : Estimate)
deriving DecidableEq

namespace Event

def level : Event → Level
  | created .. | targetReached .. => .debug
  | outsideDomain .. => .warn
  | folded .. => .trace

/-- A declared domain, or its absence, as an inspected value. -/
def domainText : Option ValueDomain → String
  | none => "None"
  | some d =>
    "Some(Bounds \x7b lower: " ++ Layout.inspect.write d.lower ++
      ", upper: " ++ Layout.inspect.write d.upper ++ " \x7d)"

/-- A half-width, or its absence, as an inspected value. -/
def epsilonText : Option Float → String
  | none => "None"
  | some e => "Some(" ++ Layout.inspect.write e ++ ")"

/-- The event in words. -/
def text : Event → String
  | created strategy confidence =>
    "confidence aggregation: strategy=" ++ strategy.name ++
      ", confidence=" ++ Layout.message.write confidence ++
      ", bounds=" ++ domainText strategy.domain?
  | outsideDomain value domain strategy =>
    "value " ++ Layout.message.write value ++ " outside declared bounds [" ++
      Layout.message.write domain.lower ++ ", " ++ Layout.message.write domain.upper ++ "]; " ++
      strategy.name ++ " bound no longer guaranteed"
  | folded number value mean epsilon =>
    "fold #" ++ toString number ++ ": value=" ++ Layout.message.write value ++
      ", mean=" ++ Layout.message.write mean ++ ", epsilon=" ++ epsilonText epsilon
  | targetReached target estimate =>
    "target precision " ++ Layout.message.write target ++ " reached: " ++ estimate.text

/-- The event as one line. -/
def line (e : Event) : String :=
  e.level.name ++ " " ++ e.text

/-- The lines of those events that are no finer than `most`. -/
def linesUpTo (most : Level) (events : List Event) : List String :=
  (events.filter fun e => e.level.rank ≤ most.rank).map line

end Event

end OnlineAggregation
