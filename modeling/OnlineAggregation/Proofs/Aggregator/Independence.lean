import OnlineAggregation.Proofs.Aggregator.Session

/-!
# Aggregator and accumulators do not interfere

An aggregator and an accumulator are both told of a value by the same fold, and each counts for
itself. Main statement: neither looks at the other. What becomes of the aggregator, what it refuses
and what it warns of depends on the values only; the accumulator that comes back depends on the one
handed in and the value only; and as long as the caller hands in what this aggregator has returned,
no accumulator ever counts more values than the aggregator.
-/

namespace OnlineAggregation

open Numeric (NaturalLog)

/-- An event that points out a danger. -/
def Event.isWarning (e : Event) : Bool :=
  e.level = .warn

namespace Aggregator

/-! ## §1 Verdicts -/

section Verdicts

/-- Warnings are all that is said about the domain. -/
theorem filter_isWarning_domainEvents (f : Aggregator) (v : Float) :
    (f.domainEvents v).filter Event.isWarning = f.domainEvents v := by
  unfold domainEvents
  split
  · split <;> rfl
  · rfl

variable [NaturalLog]

/-- What is said about the value of a call: its refusal, or the warnings it is accepted with. -/
def verdict (f : Aggregator) (c : Call) : Except EstimationError (List Event) :=
  (f.fold c.1 c.2).map fun next => next.events.filter Event.isWarning

/-- The verdicts on several calls, each at the place of its call. -/
def verdicts (f : Aggregator) : List Call → List (Except EstimationError (List Event))
  | [] => []
  | c :: calls => f.verdict c :: (f.afterCall c).verdicts calls

theorem verdict_of_finite (f : Aggregator) (a : Option (Accumulator Float)) {v : Float}
    (hv : v.isFinite = true) : f.verdict (a, v) = .ok (f.domainEvents v) := by
  rw [verdict, f.fold_of_finite a hv]
  -- After the warnings it is told that the value was folded, and this is no warning.
  have hwarnings : ∀ told : Event, told.isWarning = false →
      (f.domainEvents v ++ [told]).filter Event.isWarning = f.domainEvents v := by
    intro told htold
    rw [List.filter_append, filter_isWarning_domainEvents,
      List.filter_cons_of_neg (by simp [htold]), List.filter_nil, List.append_nil]
  exact congrArg Except.ok (hwarnings _ rfl)

theorem verdict_of_not_finite (f : Aggregator) (a : Option (Accumulator Float)) {v : Float}
    (hv : v.isFinite = false) : f.verdict (a, v) = .error (.nonFiniteValue v) := by
  rw [verdict, f.fold_of_not_finite a hv]
  rfl

/-! ## §2 Other accumulators -/

/-- The accumulator of a call has no effect on the aggregator, nor on what is said. -/
theorem call_ignores_accumulator (f : Aggregator) (a b : Option (Accumulator Float)) (v : Float) :
    f.afterCall (a, v) = f.afterCall (b, v) ∧ f.verdict (a, v) = f.verdict (b, v) := by
  cases hv : v.isFinite with
  | true =>
    rw [f.afterCall_of_finite a hv, f.afterCall_of_finite b hv, f.verdict_of_finite a hv,
      f.verdict_of_finite b hv]
    exact ⟨rfl, rfl⟩
  | false =>
    rw [f.afterCall_of_not_finite a hv, f.afterCall_of_not_finite b hv,
      f.verdict_of_not_finite a hv, f.verdict_of_not_finite b hv]
    exact ⟨rfl, rfl⟩

/-- Nor have the accumulators of several calls. -/
theorem calls_ignore_accumulators (f : Aggregator) {calls calls' : List Call}
    (hvalues : calls.map Prod.snd = calls'.map Prod.snd) :
    f.afterCalls calls = f.afterCalls calls' ∧ f.verdicts calls = f.verdicts calls' := by
  induction calls generalizing f calls' with
  | nil =>
    obtain rfl := List.map_eq_nil_iff.mp hvalues.symm
    exact ⟨rfl, rfl⟩
  | cons c calls ih =>
    obtain ⟨d, rest, rfl, hd, hrest⟩ := List.map_eq_cons_iff.mp hvalues.symm
    obtain ⟨a, v⟩ := c
    obtain ⟨b, w⟩ := d
    obtain rfl : w = v := hd
    obtain ⟨hnext, hverdict⟩ := f.call_ignores_accumulator a b w
    -- Both runs go on from the same aggregator.
    obtain ⟨hstate, hverdicts⟩ := ih (f.afterCall (a, w)) hrest.symm
    constructor
    · change (f.afterCall (a, w)).afterCalls calls = (f.afterCall (b, w)).afterCalls rest
      rw [hstate, hnext]
    · rw [verdicts, verdicts, hverdicts, hverdict, hnext]

end Verdicts

end Aggregator

/-! ## §3 Returned accumulators -/

namespace Session

variable [NaturalLog]

/-- No call takes back what was returned. -/
theorem returned_prefix_call (s : Session) (c : Call) : s.returned <+: (s.call c).returned := by
  cases hv : c.2.isFinite with
  | true =>
    rw [s.call_of_finite hv]
    exact List.prefix_append _ _
  | false => rw [s.call_of_not_finite hv]

theorem returned_prefix_afterCalls (s : Session) (calls : List Call) :
    s.returned <+: (s.afterCalls calls).returned := by
  induction calls generalizing s with
  | nil => exact List.prefix_refl _
  | cons c calls ih => exact (s.returned_prefix_call c).trans (ih (s.call c))

end Session

/-! ## §4 Both directions -/

section Independence

variable [NaturalLog]

/-- **Aggregator and accumulators do not interfere**. Two histories with the same values leave the
same aggregator, with the same number, range and half-width, and have the same refusals and warnings
at the same places, whatever accumulators are handed in. Any two aggregators give back the same
accumulator, or the same refusal, namely that of the accumulator alone. And whichever of the
returned accumulators are resumed, each of them has at any later time at most as many values as the
aggregator has accepted. -/
theorem aggregator_accumulator_independent :
    (∀ (f₀ : Aggregator) (calls calls' : List Aggregator.Call),
      calls.map Prod.snd = calls'.map Prod.snd →
      f₀.afterCalls calls = f₀.afterCalls calls' ∧ f₀.verdicts calls = f₀.verdicts calls') ∧
    (∀ (f g : Aggregator) (a : Option (Accumulator Float)) (v : Float),
      (f.fold a v).map Aggregator.Folded.accumulator =
        (g.fold a v).map Aggregator.Folded.accumulator ∧
      (f.fold a v).map Aggregator.Folded.accumulator =
        match a with
        | none => Accumulator.seed v
        | some a => a.push v) ∧
    (∀ f₀ : Aggregator, Aggregator.Built f₀ → ∀ calls more : List Session.Call,
      let s := (Session.ofAggregator f₀).afterCalls calls
      let t := s.afterCalls more
      ∀ a ∈ s.returned, a ∈ t.returned ∧ a.count ≤ t.aggregator.observations) := by
  refine ⟨fun f₀ calls calls' hvalues => f₀.calls_ignore_accumulators hvalues, ?_, ?_⟩
  · intro f g a v
    rw [f.map_accumulator_fold, g.map_accumulator_fold]
    exact ⟨rfl, by cases a <;> rfl⟩
  · intro f₀ hbuilt calls more s t a ha
    have hlater : a ∈ t.returned := (s.returned_prefix_afterCalls more).subset ha
    -- The session after the further calls is the one after all of them.
    have hfollows : t.Follows f₀ ((calls ++ more).map Prod.snd) := by
      have hall := Session.follows_afterCalls f₀ (calls ++ more)
      rwa [Session.afterCalls_append] at hall
    exact ⟨hlater, hfollows.count_le hbuilt hlater⟩

end Independence

/-- A value from outside the domain, a NaN and a value from inside: first folded into nothing, then
into foreign accumulators with more values than the aggregator. -/
theorem aggregator_accumulator_independent_foreign :
    let foreign : Accumulator Float := (Accumulator.single 7.0).insert 9.0
    let calls : List Aggregator.Call := [(none, 2.0), (none, Numeric.nan), (none, 0.5)]
    let calls' : List Aggregator.Call :=
      [(some foreign, 2.0), (none, Numeric.nan), (some foreign, 0.5)]
    (@Aggregator.afterCalls logAtFour Session.unitAggregator calls =
      @Aggregator.afterCalls logAtFour Session.unitAggregator calls') ∧
    (@Aggregator.verdicts logAtFour Session.unitAggregator calls =
      @Aggregator.verdicts logAtFour Session.unitAggregator calls') ∧
    let s := @Session.afterCalls logAtFour (.ofAggregator Session.unitAggregator)
      [(none, 0.5), (some 0, 0.25)]
    let t := @Session.afterCalls logAtFour s [(none, Numeric.nan), (some 0, 0.75)]
    ∀ a ∈ s.returned, a ∈ t.returned ∧ a.count ≤ t.aggregator.observations := by
  intro foreign calls calls'
  obtain ⟨hcalls, -, hcounts⟩ := @aggregator_accumulator_independent logAtFour
  obtain ⟨hstate, hverdicts⟩ := hcalls Session.unitAggregator calls calls' rfl
  exact ⟨hstate, hverdicts, hcounts _ Session.built_unitAggregator _ _⟩

end OnlineAggregation
