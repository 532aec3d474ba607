import OnlineAggregation.Proofs.Bound.Hull
import OnlineAggregation.Proofs.Config.Building

/-!
# Histories of an aggregator

An aggregator is built in one of six ways and then folds values into accumulators that the caller
chooses freely. Main statement: after any calls it remembers exactly the values it accepted. Their
number, their range and the half-width in store are those of the accepted values, whatever was
refused in between and whichever accumulators were handed in.
-/

namespace OnlineAggregation

open Numeric (NaturalLog)

/-! ## §1 What refreshing can say -/

/-- From the first value on a strategy has a half-width, or it has none yet. -/
theorem Strategy.eq_unavailable_of_halfWidth [NaturalLog] {s : Strategy} {level : ConfidenceLevel}
    {seen : Nat} {observed : ValueRange} {cause : EstimationError} (hseen : seen ≠ 0)
    (hdata : s.dependsOnData = true)
    (herror : s.halfWidth level.value seen (some observed) = .error cause) :
    cause = .halfWidthUnavailable := by
  cases s with
  | conservative domain =>
    rw [halfWidth, seenHalfWidth_of_ne_zero level hseen] at herror
    cases herror
  | deterministic domain planned => simp [dependsOnData] at hdata
  | largeSample domain =>
    cases domain with
    | some domain =>
      rw [halfWidth, seenHalfWidth_of_ne_zero level hseen] at herror
      cases herror
    | none =>
      rw [halfWidth, seenHalfWidth_of_ne_zero level hseen] at herror
      split at herror
      · cases herror
      · cases herror
        rfl

namespace Aggregator

section Histories

variable [NaturalLog]

/-- The half-width in store after `seen` values: that of the strategy if it looks at the data, and
else the old one. -/
def stored (f : Aggregator) (seen : Nat) (observed : ValueRange) : Option Float :=
  if f.strategy.dependsOnData then
    (f.strategy.halfWidth f.confidence.value seen (some observed)).toOption
  else f.epsilon?

/-- Refreshing never fails once there is a value. -/
theorem refreshed_eq_ok (f : Aggregator) {seen : Nat} (hseen : seen ≠ 0) (observed : ValueRange) :
    f.refreshed seen observed = .ok (f.stored seen observed) := by
  unfold refreshed stored
  cases hdata : f.strategy.dependsOnData with
  | false => rfl
  | true =>
    simp only [if_true]
    cases hwidth : f.strategy.halfWidth f.confidence.value seen (some observed) with
    | ok e => rfl
    | error cause =>
      obtain rfl := Strategy.eq_unavailable_of_halfWidth hseen hdata hwidth
      rfl

/-- The aggregator with one more value. -/
def withValue (f : Aggregator) (v : Float) : Aggregator :=
  { f with
    observations := f.observations + 1
    observed := some (f.observedWith v)
    epsilon? := f.stored (f.observations + 1) (f.observedWith v) }

/-- All that a fold can do: it fails as the accumulator does, or it has one more value. -/
theorem fold_eq (f : Aggregator) (a : Option (Accumulator Float)) (v : Float) :
    f.fold a v = (Accumulator.extend a v).map fun next =>
      { accumulator := next
        aggregator := f.withValue v
        events := f.domainEvents v ++
          [.folded (f.observations + 1) v next.mean (f.withValue v).epsilon?] } := by
  unfold fold
  cases hnext : Accumulator.extend a v with
  | error cause => rfl
  | ok next =>
    simp only [bind, Except.bind, refreshed_eq_ok f (Nat.succ_ne_zero _)]
    rfl

/-- The accumulator that a fold gives back, or its error, is not a matter of the strategy. -/
theorem map_accumulator_fold (f : Aggregator) (a : Option (Accumulator Float)) (v : Float) :
    (f.fold a v).map Folded.accumulator = Accumulator.extend a v := by
  rw [fold_eq]
  cases Accumulator.extend a v <;> rfl

/-! ## §2 Ways of building -/

/-- An aggregator as a constructor or a configured choice gives it. -/
inductive Built : Aggregator → Prop where
  | largeSample {c : Float} {f : Aggregator} (h : Aggregator.largeSample c = .ok f) : Built f
  | largeSampleWithin {c lower upper : Float} {f : Aggregator}
      (h : Aggregator.largeSampleWithin c lower upper = .ok f) : Built f
  | conservative {c lower upper : Float} {f : Aggregator}
      (h : Aggregator.conservative c lower upper = .ok f) : Built f
  | deterministicAt {c lower upper : Float} {planned : Nat} {f : Aggregator}
      (h : Aggregator.deterministicAt c lower upper planned = .ok f) : Built f
  | deterministic {lower upper : Float} {planned : Nat} {f : Aggregator}
      (h : Aggregator.deterministic lower upper planned = .ok f) : Built f
  | choice {choice : Config.Choice} {f : Aggregator} (h : choice.build = .ok f) : Built f

/-- The half-width of a strategy that was settled in advance. -/
def planned? (f : Aggregator) : Option Float :=
  match f.strategy with
  | .deterministic domain planned => some (f.confidence.hoeffding planned domain.width)
  | _ => none

/-- Nothing was folded yet. -/
structure IsFresh (f : Aggregator) : Prop where
  observations_eq : f.observations = 0
  observed_eq : f.observed = none
  epsilon_eq : f.epsilon? = f.planned?
  planned_pos : ∀ domain planned, f.strategy = .deterministic domain planned → planned ≠ 0

theorem isFresh_of_start {c : Float} {s : Strategy} {f : Aggregator} (h : start c s = .ok f) :
    f.IsFresh := by
  obtain ⟨level, hlevel, h⟩ := bind_eq_ok_iff.mp h
  cases s with
  | largeSample domain =>
    cases h
    exact ⟨rfl, rfl, rfl, fun _ _ h => nomatch h⟩
  | conservative domain =>
    cases h
    exact ⟨rfl, rfl, rfl, fun _ _ h => nomatch h⟩
  | deterministic domain planned =>
    by_cases hplanned : planned = 0
    · subst hplanned
      cases h
    · -- The first half-width is asked for at no observation, and answered from the planned count.
      have hwidth : (Strategy.deterministic domain planned).halfWidth level.value 0 none =
          .ok (level.hoeffding planned domain.width) := by
        rw [Strategy.halfWidth_deterministic, plannedHalfWidth, if_neg hplanned,
          seenHalfWidth_of_ne_zero level hplanned]
      simp only [Strategy.dependsOnData, hwidth] at h
      cases h
      refine ⟨rfl, rfl, rfl, ?_⟩
      rintro domain' planned' heq
      cases heq
      exact hplanned

/-- However it was built, an aggregator starts without values. -/
theorem Built.isFresh {f : Aggregator} (h : Built f) : f.IsFresh := by
  have hdeterministic : ∀ {c lower upper : Float} {planned : Nat},
      Aggregator.deterministicAt c lower upper planned = .ok f → f.IsFresh := by
    intro c lower upper planned h
    obtain ⟨domain, -, h⟩ := bind_eq_ok_iff.mp h
    split at h
    · cases h
    · exact isFresh_of_start h
  cases h with
  | largeSample h => exact isFresh_of_start h
  | largeSampleWithin h =>
    obtain ⟨domain, -, h⟩ := bind_eq_ok_iff.mp h
    exact isFresh_of_start h
  | conservative h =>
    obtain ⟨domain, -, h⟩ := bind_eq_ok_iff.mp h
    exact isFresh_of_start h
  | deterministicAt h => exact hdeterministic h
  | deterministic h => exact hdeterministic h
  | choice h =>
    -- A configured choice starts its strategy as the constructors do.
    rw [Config.Choice.build_eq] at h
    obtain ⟨s, -, h⟩ := bind_eq_ok_iff.mp h
    exact isFresh_of_start h

/-- A strategy that looks at the data starts with nothing in store. -/
theorem start_of_dependsOnData (level : ConfidenceLevel) {s : Strategy}
    (hdata : s.dependsOnData = true) : start level.value s = .ok ⟨level, s, 0, none, none⟩ := by
  simp [start, hdata, bind, Except.bind, pure, Except.pure]

theorem conservative_of_checked (level : ConfidenceLevel) (d : ValueDomain) :
    Aggregator.conservative level.value d.lower d.upper =
      .ok ⟨level, .conservative d, 0, none, none⟩ := by
  rw [Aggregator.conservative, ValueDomain.check_self]
  exact start_of_dependsOnData level rfl

theorem largeSampleWithin_of_checked (level : ConfidenceLevel) (d : ValueDomain) :
    Aggregator.largeSampleWithin level.value d.lower d.upper =
      .ok ⟨level, .largeSample (some d), 0, none, none⟩ := by
  rw [Aggregator.largeSampleWithin, ValueDomain.check_self]
  exact start_of_dependsOnData level rfl

/-- A deterministic aggregator starts with the half-width of its plan. -/
theorem deterministicAt_of_checked (level : ConfidenceLevel) (d : ValueDomain) {planned : Nat}
    (hplanned : planned ≠ 0) :
    Aggregator.deterministicAt level.value d.lower d.upper planned =
      .ok ⟨level, .deterministic d planned, 0, none, some (level.hoeffding planned d.width)⟩ := by
  simp [Aggregator.deterministicAt, start, Strategy.dependsOnData, Strategy.halfWidth,
    plannedHalfWidth, hplanned, seenHalfWidth_of_ne_zero level hplanned, bind, Except.bind, pure,
    Except.pure]

/-! ## §3 Calls -/

/-- A call of fold: the accumulator handed in, and the value. -/
abbrev Call : Type :=
  Option (Accumulator Float) × Float

/-- The aggregator after a call, whether the value was accepted or refused. -/
def afterCall (f : Aggregator) (c : Call) : Aggregator :=
  match f.fold c.1 c.2 with
  | .ok next => next.aggregator
  | .error _ => f

/-- The aggregator after several calls. -/
def afterCalls (f : Aggregator) (calls : List Call) : Aggregator :=
  calls.foldl afterCall f

/-- The values of the calls that are accepted. -/
def acceptedValues (calls : List Call) : List Float :=
  (calls.map Prod.snd).filter Float.isFinite

omit [NaturalLog] in
theorem extend_of_finite (a : Option (Accumulator Float)) {v : Float} (hv : v.isFinite = true) :
    Accumulator.extend a v = .ok (a.elim (.single v) (·.insert v)) := by
  cases a <;> exact if_pos hv

theorem fold_of_finite (f : Aggregator) (a : Option (Accumulator Float)) {v : Float}
    (hv : v.isFinite = true) : f.fold a v = .ok
      { accumulator := a.elim (.single v) (·.insert v)
        aggregator := f.withValue v
        events := f.domainEvents v ++ [.folded (f.observations + 1) v
          (a.elim (.single v) (·.insert v) : Accumulator Float).mean
          (f.withValue v).epsilon?] } := by
  rw [fold_eq, extend_of_finite a hv]
  rfl

theorem fold_of_not_finite (f : Aggregator) (a : Option (Accumulator Float)) {v : Float}
    (hv : v.isFinite = false) : f.fold a v = .error (.nonFiniteValue v) := by
  rw [fold_eq, Accumulator.extend_eq_error_iff.mpr ⟨hv, rfl⟩]
  rfl

/-- Only a finite value is folded in. -/
theorem fold_eq_ok {f : Aggregator} {a : Option (Accumulator Float)} {v : Float} {next : Folded}
    (h : f.fold a v = .ok next) :
    v.isFinite = true ∧ next.accumulator = a.elim (.single v) (·.insert v) ∧
      next.aggregator = f.withValue v := by
  cases hv : v.isFinite with
  | true =>
    rw [f.fold_of_finite a hv] at h
    cases h
    exact ⟨rfl, rfl, rfl⟩
  | false =>
    rw [f.fold_of_not_finite a hv] at h
    cases h

/-- A fold fails for one reason only, whatever the strategy. -/
theorem fold_eq_error {f : Aggregator} {a : Option (Accumulator Float)} {v : Float}
    {cause : EstimationError} (h : f.fold a v = .error cause) :
    v.isFinite = false ∧ cause = .nonFiniteValue v := by
  cases hv : v.isFinite with
  | true =>
    rw [f.fold_of_finite a hv] at h
    cases h
  | false =>
    rw [f.fold_of_not_finite a hv] at h
    cases h
    exact ⟨rfl, rfl⟩

theorem afterCall_of_finite (f : Aggregator) (a : Option (Accumulator Float)) {v : Float}
    (hv : v.isFinite = true) : f.afterCall (a, v) = f.withValue v := by
  simp only [afterCall, f.fold_of_finite a hv]

theorem afterCall_of_not_finite (f : Aggregator) (a : Option (Accumulator Float)) {v : Float}
    (hv : v.isFinite = false) : f.afterCall (a, v) = f := by
  simp only [afterCall, f.fold_of_not_finite a hv]

theorem afterCalls_append (f : Aggregator) (calls more : List Call) :
    f.afterCalls (calls ++ more) = (f.afterCalls calls).afterCalls more :=
  List.foldl_append

theorem afterCalls_append_singleton (f : Aggregator) (calls : List Call) (c : Call) :
    f.afterCalls (calls ++ [c]) = (f.afterCalls calls).afterCall c :=
  f.afterCalls_append calls [c]

omit [NaturalLog] in
theorem acceptedValues_append (calls more : List Call) :
    acceptedValues (calls ++ more) = acceptedValues calls ++ acceptedValues more := by
  simp [acceptedValues]

omit [NaturalLog] in
theorem acceptedValues_append_singleton (calls : List Call) (c : Call) :
    acceptedValues (calls ++ [c]) =
      acceptedValues calls ++ if c.2.isFinite then [c.2] else [] := by
  unfold acceptedValues
  cases h : c.2.isFinite <;> simp [h]

/-! ## §4 What is remembered -/

/-- Number, range and half-width in store are those of the values `ys`. -/
structure Remembers (f : Aggregator) (ys : List Float) : Prop where
  observations_eq : f.observations = ys.length
  observed_of_nil : ys = [] → f.observed = none
  observed_of_ne_nil : ys ≠ [] → ∃ r, f.observed = some r ∧ r.IsHullOf ys
  planned : f.strategy.dependsOnData = false → f.epsilon? = f.planned?
  epsilon_of_nil : f.strategy.dependsOnData = true → ys = [] → f.epsilon? = none
  epsilon_of_ne_nil : f.strategy.dependsOnData = true → ys ≠ [] →
    f.epsilon? = (f.strategy.halfWidth f.confidence.value f.observations f.observed).toOption

theorem IsFresh.remembers {f : Aggregator} (h : f.IsFresh) : f.Remembers [] where
  observations_eq := h.observations_eq
  observed_of_nil _ := h.observed_eq
  observed_of_ne_nil hne := absurd rfl hne
  planned _ := h.epsilon_eq
  epsilon_of_nil hdata _ := by
    rw [h.epsilon_eq, planned?]
    cases hstrategy : f.strategy with
    | deterministic domain planned => simp [hstrategy, Strategy.dependsOnData] at hdata
    | _ => rfl
  epsilon_of_ne_nil _ hne := absurd rfl hne

theorem Remembers.observedWith {f : Aggregator} {ys : List Float} (h : f.Remembers ys) {v : Float}
    (hv : v.isFinite = true) : (f.observedWith v).IsHullOf (ys ++ [v]) := by
  unfold Aggregator.observedWith
  rcases List.eq_nil_or_concat ys with rfl | ⟨zs, z, rfl⟩
  · rw [h.observed_of_nil rfl]
    exact ValueRange.isHullOf_point hv
  · obtain ⟨r, hobserved, hhull⟩ := h.observed_of_ne_nil (by simp)
    rw [hobserved]
    exact hhull.widen hv

/-- An accepted value is remembered with those before it. -/
theorem Remembers.withValue {f : Aggregator} {ys : List Float} (h : f.Remembers ys) {v : Float}
    (hv : v.isFinite = true) : (f.withValue v).Remembers (ys ++ [v]) where
  observations_eq := by simp [Aggregator.withValue, h.observations_eq]
  observed_of_nil hnil := absurd hnil (by simp)
  observed_of_ne_nil _ := ⟨f.observedWith v, rfl, h.observedWith hv⟩
  planned hdata := by
    have hdata' : f.strategy.dependsOnData = false := hdata
    -- A planned half-width is carried over, so the old one has to be right already.
    have hold : (f.withValue v).epsilon? = f.epsilon? := by
      simp [Aggregator.withValue, stored, hdata']
    exact hold.trans (h.planned hdata')
  epsilon_of_nil _ hnil := absurd hnil (by simp)
  epsilon_of_ne_nil hdata _ := if_pos hdata

/-- A call adds its value to what is remembered if it is finite, and nothing otherwise. -/
theorem Remembers.afterCall {f : Aggregator} {ys : List Float} (h : f.Remembers ys) (c : Call) :
    (f.afterCall c).Remembers (ys ++ if c.2.isFinite then [c.2] else []) := by
  obtain ⟨a, v⟩ := c
  cases hv : v.isFinite with
  | true =>
    rw [f.afterCall_of_finite a hv, if_pos rfl]
    exact h.withValue hv
  | false =>
    rw [f.afterCall_of_not_finite a hv, if_neg Bool.false_ne_true, List.append_nil]
    exact h

theorem afterCall_settings (f : Aggregator) (c : Call) :
    (f.afterCall c).confidence = f.confidence ∧ (f.afterCall c).strategy = f.strategy := by
  obtain ⟨a, v⟩ := c
  cases hv : v.isFinite with
  | true =>
    rw [f.afterCall_of_finite a hv]
    exact ⟨rfl, rfl⟩
  | false =>
    rw [f.afterCall_of_not_finite a hv]
    exact ⟨rfl, rfl⟩

/-- No call changes the confidence or the strategy. -/
theorem afterCalls_settings (f : Aggregator) (calls : List Call) :
    (f.afterCalls calls).confidence = f.confidence ∧
      (f.afterCalls calls).strategy = f.strategy := by
  induction calls using List.reverseRecOn with
  | nil => exact ⟨rfl, rfl⟩
  | append_singleton calls c ih =>
    rw [afterCalls_append_singleton, (afterCall_settings _ c).1, (afterCall_settings _ c).2]
    exact ih

/-- The half-width in store is what the strategy answers, or absent if it has no answer yet. -/
theorem Remembers.epsilon_eq_answer {f : Aggregator} {ys : List Float} (h : f.Remembers ys)
    (hdata : f.strategy.dependsOnData = true) (hne : ys ≠ []) :
    let answer := f.strategy.halfWidth f.confidence.value f.observations f.observed
    (∀ e, answer = .ok e → f.epsilon? = some e) ∧
      (∀ cause, answer = .error cause → cause = .halfWidthUnavailable ∧ f.epsilon? = none) := by
  intro answer
  have hepsilon : f.epsilon? = answer.toOption := h.epsilon_of_ne_nil hdata hne
  obtain ⟨r, hobserved, -⟩ := h.observed_of_ne_nil hne
  have hseen : f.observations ≠ 0 := by
    rw [h.observations_eq]
    exact mt List.length_eq_zero_iff.mp hne
  constructor
  · intro e hanswer
    rw [hepsilon, hanswer]
    rfl
  · intro cause hanswer
    rw [hepsilon, hanswer]
    refine ⟨?_, rfl⟩
    apply @Strategy.eq_unavailable_of_halfWidth _ _ f.confidence _ r _ hseen hdata
    rw [← hobserved]
    exact hanswer

theorem Built.remembers {f : Aggregator} (h : Built f) (calls : List Call) :
    (f.afterCalls calls).Remembers (acceptedValues calls) := by
  -- From the end, so that each call meets the state left by those before it.
  induction calls using List.reverseRecOn with
  | nil => exact h.isFresh.remembers
  | append_singleton calls c ih =>
    rw [afterCalls_append_singleton, acceptedValues_append_singleton]
    exact ih.afterCall c

/-- The check of the planned count at the start holds for good, since no call changes it. -/
theorem Built.planned_ne_zero {f₀ : Aggregator} (hbuilt : Built f₀) {calls : List Call}
    {domain : ValueDomain} {planned : Nat}
    (hstrategy : (f₀.afterCalls calls).strategy = .deterministic domain planned) :
    planned ≠ 0 := by
  apply hbuilt.isFresh.planned_pos domain planned
  rw [← (f₀.afterCalls_settings calls).2]
  exact hstrategy

/-- **Nothing in store is stale**: after any calls, number, range and half-width are those of the
accepted values. A deterministic half-width is the planned one from the start; any other is absent
before the first value, and then what the strategy answers for the current number and range. -/
theorem stored_state_is_current {f₀ : Aggregator} (hbuilt : Built f₀) (calls : List Call) :
    let f := f₀.afterCalls calls
    let ys := acceptedValues calls
    let answer := f.strategy.halfWidth f.confidence.value f.observations f.observed
    f.observations = ys.length ∧
    (ys = [] → f.observed = none) ∧
    (ys ≠ [] → ∃ r, f.observed = some r ∧ r.IsHullOf ys) ∧
    (∀ domain planned, f.strategy = .deterministic domain planned →
      ∃ e, plannedHalfWidth f.confidence.value domain.toValueRange planned = .ok e ∧
        e = f.confidence.hoeffding planned domain.width ∧ f.epsilon? = some e) ∧
    (f.strategy.dependsOnData = true → ys = [] → f.epsilon? = none) ∧
    (f.strategy.dependsOnData = true → ys ≠ [] →
      (∀ e, answer = .ok e → f.epsilon? = some e) ∧
      (∀ cause, answer = .error cause → cause = .halfWidthUnavailable ∧ f.epsilon? = none)) := by
  intro f ys answer
  have hremembers : f.Remembers ys := hbuilt.remembers calls
  refine ⟨hremembers.observations_eq, hremembers.observed_of_nil, hremembers.observed_of_ne_nil,
    ?_, hremembers.epsilon_of_nil, hremembers.epsilon_eq_answer⟩
  intro domain planned hstrategy
  have hplanned : planned ≠ 0 := hbuilt.planned_ne_zero hstrategy
  have hdata : f.strategy.dependsOnData = false := by
    rw [hstrategy]
    rfl
  refine ⟨f.confidence.hoeffding planned domain.width, ?_, rfl, ?_⟩
  · rw [plannedHalfWidth, if_neg hplanned, seenHalfWidth_of_ne_zero f.confidence hplanned]
  · rw [hremembers.planned hdata, planned?, hstrategy]

/-- Even odds, a level that every constructor accepts. -/
def half : ConfidenceLevel :=
  ⟨0.5, by decide, by decide⟩

theorem largeSample_half :
    Aggregator.largeSample half.value = .ok ⟨half, .largeSample none, 0, none, none⟩ := by
  rw [Aggregator.largeSample, start, ConfidenceLevel.check_value]
  rfl

end Histories

theorem stored_state_is_current_largeSample :
    ((⟨half, .largeSample none, 0, none, none⟩ : Aggregator).afterCalls
      [(none, 2.0), (none, Numeric.nan), (none, 3.0)]).observations = 2 :=
  (stored_state_is_current (.largeSample largeSample_half)
    [(none, 2.0), (none, Numeric.nan), (none, 3.0)]).1.trans (by decide)

end Aggregator

end OnlineAggregation
