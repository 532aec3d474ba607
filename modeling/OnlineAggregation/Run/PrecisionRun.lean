import OnlineAggregation.Bound.SamplePlan
import OnlineAggregation.Mean.Estimator

/-!
# Runs to a precision

A run takes values from a source, adds each to an estimator, and stops as soon as the half-width
is within the target. The half-width is looked at before a value is taken, so a run whose bound is
within the target from the start takes nothing.

The source is any stream of numbers. `PrecisionRun.next?` makes one step and `PrecisionRun.take` a
bounded number of them.
-/

namespace OnlineAggregation

open Numeric (NaturalLog)

/-! ## §1 Sources -/

/-- A list of values that is gone through a number of times. -/
structure CyclicSource where
  values : List Float
  /-- How many rounds start after this one. -/
  rounds : Nat
  /-- What is left of this round. -/
  rest : List Float

namespace CyclicSource

/-- The source that goes through `values` in `rounds` rounds. -/
def ofList (values : List Float) (rounds : Nat) : CyclicSource :=
  { values, rounds, rest := [] }

/-- The next value, from the next round once this one is over. -/
def next? (s : CyclicSource) : Option (Float × CyclicSource) :=
  match s.rest, s.rounds, s.values with
  | v :: rest, _, _ => some (v, { s with rest })
  -- The round is over, and another one starts.
  | [], rounds + 1, v :: rest => some (v, { s with rounds, rest })
  | [], _, _ => none

instance : Std.Stream CyclicSource Float where
  next? := next?

/-- How many values are left. -/
def remaining (s : CyclicSource) : Nat :=
  s.rest.length + s.rounds * s.values.length

theorem remaining_of_next? {s s' : CyclicSource} {v : Float} (h : s.next? = some (v, s')) :
    s.remaining = s'.remaining + 1 := by
  rcases s with ⟨values, rounds, rest⟩
  rcases rest with _ | ⟨w, rest⟩
  · rcases rounds with _ | rounds
    · simp [next?] at h
    · rcases values with _ | ⟨w, values⟩
      · simp [next?] at h
      · simp only [next?, Option.some.injEq, Prod.mk.injEq] at h
        obtain ⟨-, rfl⟩ := h
        simp only [remaining, List.length_nil, List.length_cons, Nat.add_mul]
        omega
  · simp only [next?, Option.some.injEq, Prod.mk.injEq] at h
    obtain ⟨-, rfl⟩ := h
    simp only [remaining, List.length_cons]
    omega

/-- A source without values left gives none. -/
theorem next?_eq_none_iff (s : CyclicSource) : s.next? = none ↔ s.remaining = 0 := by
  rcases s with ⟨values, rounds, rest⟩
  rcases rest with _ | ⟨w, rest⟩ <;> rcases rounds with _ | rounds <;>
    rcases values with _ | ⟨w, values⟩ <;> simp [next?, remaining]

end CyclicSource

/-! ## §2 Steps -/

/-- What a run yields for a value it has taken. -/
abbrev Item := Except EstimationError Estimate

/-- An estimator on its way to a target half-width, and where its values come from. -/
structure PrecisionRun (σ : Type) where
  estimator : Estimator
  target : TargetPrecision
  /-- The values not yet taken. -/
  source : σ

/-- One step of a run: the item, the run after it, and what there is to tell. -/
structure Step (σ : Type) where
  /-- The estimate after the value taken, or why the value was refused. -/
  item : Item
  run : PrecisionRun σ
  events : List Event

namespace PrecisionRun

variable {σ : Type}

/-- Sets up a run with an aggregator. -/
def start (f : Aggregator) (target : Float) (source : σ) :
    Except EstimationError (PrecisionRun σ) := do
  let target ← TargetPrecision.check target
  pure { estimator := Estimator.ofAggregator f, target, source }

/-- Whether the half-width is within the target. -/
def reached (r : PrecisionRun σ) : Bool :=
  match r.estimator.epsilon with
  | .ok e => e ≤ r.target.value
  | .error _ => false

/-- The item for the state after an accepted value. -/
def itemOf (e : Estimator) : Item :=
  match e.estimateOrUnbounded with
  | some estimate => .ok estimate
  | none => .error .noObservations

/-- The event of an item within the target. -/
def targetEvents (target : TargetPrecision) : Item → List Event
  | .ok estimate =>
    if estimate.epsilon ≤ target.value then [.targetReached target.value estimate] else []
  | .error _ => []

/-- Adds one value that was taken from the source, with `source` left over. -/
def accept [NaturalLog] (r : PrecisionRun σ) (v : Float) (source : σ) : Step σ :=
  match r.estimator.add v with
  | .ok (estimator, events) =>
    let item := itemOf estimator
    { item, run := { r with estimator, source }
      events := events ++ targetEvents r.target item }
  | .error cause =>
    -- The value is gone from the source, and nothing else has changed.
    { item := .error cause, run := { r with source }, events := [] }

/-- The next step: none once the target is reached or the source is at its end. -/
def next? [NaturalLog] [Std.Stream σ Float] (r : PrecisionRun σ) : Option (Step σ) :=
  -- Looked at before the source is touched.
  if r.reached then none
  else
    match Std.Stream.next? r.source with
    | some (v, source) => some (r.accept v source)
    | none => none

/-- A run that has reached its target takes nothing more. -/
theorem next?_of_reached [NaturalLog] [Std.Stream σ Float] {r : PrecisionRun σ}
    (h : r.reached = true) : r.next? = none := by
  simp [next?, h]

/-- A stretch of a run. -/
structure Stretch (σ : Type) where
  items : List Item
  run : PrecisionRun σ
  events : List Event
  /-- Whether the run gave no further item. -/
  ended : Bool

/-- The next steps, `limit` of them unless the run ends before. -/
def take [NaturalLog] [Std.Stream σ Float] : Nat → PrecisionRun σ → Stretch σ
  | 0, r => { items := [], run := r, events := [], ended := false }
  | limit + 1, r =>
    match r.next? with
    | none => { items := [], run := r, events := [], ended := true }
    | some step =>
      let later := take limit step.run
      { later with items := step.item :: later.items, events := step.events ++ later.events }

/-- A stretch that did not end has all the items that were asked for. -/
theorem length_items_take [NaturalLog] [Std.Stream σ Float] {limit : Nat} {r : PrecisionRun σ}
    (h : (r.take limit).ended = false) : (r.take limit).items.length = limit := by
  induction limit generalizing r with
  | zero => simp [take]
  | succ limit ih =>
    revert h
    simp only [take]
    split
    · simp
    · intro h
      simpa using ih h

/-- The whole of a run over a source that has at most `size` values left. -/
def complete [NaturalLog] [Std.Stream σ Float] (size : Nat) (r : PrecisionRun σ) : Stretch σ :=
  -- One step more than there are values, to see the run end.
  r.take (size + 1)

end PrecisionRun

end OnlineAggregation
