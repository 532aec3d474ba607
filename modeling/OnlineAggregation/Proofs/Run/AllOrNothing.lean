import OnlineAggregation.Proofs.Aggregator.DeclaredDomain
import OnlineAggregation.Proofs.Aggregator.Monotone
import OnlineAggregation.Proofs.Run.PlannedSample

/-!
# Runs with a planned half-width

A planned half-width is there before the first value and never moves, so a run with it has reached
its target at the start or never does. Main statement: whatever was folded before, the half-width of
a deterministic aggregator is the one of its plan; a run to a target that is not below it takes
nothing, and a run to a target below it takes every value of its source, with an item for each.
-/

namespace OnlineAggregation

open Numeric (NaturalLog)

/-! ## §1 Runs that never reach their target -/

namespace Aggregator

variable [NaturalLog] {f : Aggregator} {target : Float}

/-- No values bring the half-width within the target. -/
def NeverWithin (f : Aggregator) (target : Float) : Prop :=
  ∀ vs : List Float, (f.afterValues vs).isWithin target = false

theorem NeverWithin.isWithin (h : f.NeverWithin target) : f.isWithin target = false :=
  h []

theorem NeverWithin.afterCall (h : f.NeverWithin target) (v : Float) :
    (f.afterCall (none, v)).NeverWithin target :=
  fun vs => h (v :: vs)

end Aggregator

/-- A finite value is answered with an estimate, any other with a refusal that names it. -/
inductive Answers : Float → Item → Prop where
  | estimate {v : Float} (hv : v.isFinite = true) (e : Estimate) : Answers v (.ok e)
  | refusal {v : Float} (hv : v.isFinite = false) : Answers v (.error (.nonFiniteValue v))

namespace PrecisionRun

variable [NaturalLog] {σ : Type}

theorem answers_accept (r : PrecisionRun σ) (v : Float) (source : σ) :
    Answers v (r.accept v source).item := by
  cases hv : v.isFinite with
  | true =>
    rw [(r.accept_of_fold_ok (Aggregator.fold_of_finite _ _ hv) source).1]
    exact .estimate hv _
  | false =>
    rw [(r.accept_of_fold_error (Aggregator.fold_of_not_finite _ _ hv) source).1]
    exact .refusal hv

variable [Std.Stream σ Float]

/-- A run that never reaches its target takes whatever there is, and answers each value. -/
theorem takes_all {r : PrecisionRun σ}
    (hnever : r.estimator.aggregator.NeverWithin r.target.value) (k : ℕ) :
    List.Forall₂ Answers (firstValues k r.source) (r.take k).items ∧
      (r.take k).run.source = leftover k r.source ∧ (r.take k).run.reached = false := by
  -- The stopping test fails before each value, so only the end of the source can end the run.
  induction k generalizing r with
  | zero => exact ⟨.nil, rfl, hnever.isWithin⟩
  | succ k ih =>
    rcases r.next?_cases with ⟨hnone, hwhy⟩ | ⟨v, rest, -, hsource, hnext⟩
    · -- No further step, and not for the target.
      have hend : Std.Stream.next? r.source = (none : Option (Float × σ)) := by
        refine hwhy.resolve_left fun hreached => ?_
        cases hreached.symm.trans hnever.isWithin
      obtain ⟨hitems, hrun⟩ := take_of_next?_none hnone (k + 1)
      rw [hitems, hrun, firstValues_of_none hend, leftover_of_none hend]
      exact ⟨.nil, rfl, hnever.isWithin⟩
    · obtain ⟨hitems, hrun⟩ := take_of_next?_some hnext k
      obtain ⟨haggregator, htarget, hrest, -⟩ := r.accept_spec v rest
      have hnever' : (r.accept v rest).run.estimator.aggregator.NeverWithin
          (r.accept v rest).run.target.value := by
        rw [haggregator, htarget]
        exact hnever.afterCall v
      obtain ⟨hlater, hleft, hreached⟩ := ih hnever'
      rw [hrest] at hlater hleft
      rw [hitems, hrun, firstValues_of_some hsource, leftover_of_some hsource]
      exact ⟨.cons (r.answers_accept v rest) hlater, hleft, hreached⟩

/-- Over a list such a run comes to the end. -/
theorem complete_of_neverWithin {r : PrecisionRun (List Float)}
    (hnever : r.estimator.aggregator.NeverWithin r.target.value) :
    let s := r.complete r.source.length
    List.Forall₂ Answers r.source s.items ∧ s.run.source = [] ∧ s.ended = true := by
  intro s
  obtain ⟨hitems, hleft, -⟩ := takes_all hnever (r.source.length + 1)
  rw [firstValues_list, List.take_of_length_le (Nat.le_succ _)] at hitems
  rw [leftover_list, List.drop_of_length_le (Nat.le_succ _)] at hleft
  refine ⟨hitems, hleft, ?_⟩
  -- Otherwise there would be an item more than there are values.
  cases hended : s.ended with
  | true => rfl
  | false =>
    have hlength : s.items.length = r.source.length + 1 := length_items_take hended
    have hsame : r.source.length = s.items.length := hitems.length_eq
    omega

/-- A run within its target is over before it begins. -/
theorem complete_of_reached {r : PrecisionRun σ} (h : r.reached = true) (size : ℕ) :
    (r.complete size).items = [] ∧ (r.complete size).run = r ∧
      (r.complete size).ended = true := by
  rw [complete, take, next?_of_reached h]
  exact ⟨rfl, rfl, rfl⟩

end PrecisionRun

/-! ## §2 Deterministic aggregators -/

namespace Aggregator

variable [NaturalLog] {confidence lower upper : Float} {planned : ℕ} {f : Aggregator}

/-- The ways to a deterministic aggregator, with the parameters of its plan. -/
inductive BuiltFromPlan : Float → Float → Float → ℕ → Aggregator → Prop where
  | deterministicAt {confidence lower upper : Float} {planned : ℕ} {f : Aggregator}
      (h : Aggregator.deterministicAt confidence lower upper planned = .ok f) :
      BuiltFromPlan confidence lower upper planned f
  | deterministic {lower upper : Float} {planned : ℕ} {f : Aggregator}
      (h : Aggregator.deterministic lower upper planned = .ok f) :
      BuiltFromPlan defaultConfidence lower upper planned f
  | choice {params : Config.DeterministicParams} {f : Aggregator}
      (h : (Config.Choice.deterministic params).build = .ok f) :
      BuiltFromPlan params.confidence params.lower params.upper params.plannedSamples f

/-- All of them lead through the same constructor. -/
theorem BuiltFromPlan.eq_deterministicAt (h : BuiltFromPlan confidence lower upper planned f) :
    Aggregator.deterministicAt confidence lower upper planned = .ok f := by
  cases h with
  | deterministicAt h => exact h
  | deterministic h => exact h
  | choice h => exact h

/-- The half-width of the plan is the formula at the planned count, at every moment. -/
theorem BuiltFromPlan.epsilon_afterCalls (h : BuiltFromPlan confidence lower upper planned f) :
    ∃ e, seenHalfWidth confidence planned ⟨lower, upper⟩ = .ok e ∧
      ∀ calls : List Call, (f.afterCalls calls).epsilon = .ok e := by
  have hstart := h.eq_deterministicAt
  obtain ⟨level, domain, rfl, rfl, rfl, hplanned⟩ := checked_of_deterministicAt hstart
  obtain ⟨f', hf', hepsilon⟩ := isPlannedHalfWidth_of_checked level domain hplanned
  obtain rfl : f' = f := Except.ok.inj (hf'.symm.trans hstart)
  exact ⟨_, seenHalfWidth_of_ne_zero level hplanned domain.toValueRange, hepsilon⟩

theorem neverWithin_of_epsilon {target e : Float} (habove : ¬ e ≤ target)
    (hepsilon : ∀ calls : List Call, (f.afterCalls calls).epsilon = .ok e) (calls : List Call) :
    (f.afterCalls calls).NeverWithin target := by
  intro vs
  rw [isWithin, afterValues, ← afterCalls_append, hepsilon]
  exact decide_eq_false habove

end Aggregator

section Planned

variable [NaturalLog]

/-- **A planned half-width is all or nothing**: however a deterministic aggregator was built and
whatever was folded with it since, its half-width is the formula at the planned count. A run with it
to a finite positive target has reached the target, and then gives no item and leaves any source
untouched; or it never reaches it, and then gives an item for each value of any source, which it
takes to its end if it has one. -/
theorem planned_all_or_nothing {confidence lower upper : Float} {planned : ℕ} {f : Aggregator}
    (h : Aggregator.BuiltFromPlan confidence lower upper planned f) :
    ∃ e, seenHalfWidth confidence planned ⟨lower, upper⟩ = .ok e ∧ f.epsilon = .ok e ∧
      ∀ calls : List Aggregator.Call, (f.afterCalls calls).epsilon = .ok e ∧
      ∀ target : Float, target.isFinite = true → 0.0 < target →
        (∀ (σ : Type) [Std.Stream σ Float] (source : σ), ∃ r : PrecisionRun σ,
          PrecisionRun.start (f.afterCalls calls) target source = .ok r ∧
          (e ≤ target → r.reached = true ∧ r.next? = none ∧
            ∀ k, (r.take k).items = [] ∧ (r.take k).run.source = source) ∧
          (¬ e ≤ target → ∀ k, (r.take k).run.reached = false ∧
            List.Forall₂ Answers (firstValues k source) (r.take k).items ∧
            (r.take k).run.source = leftover k source)) ∧
        ∀ vs : List Float, ∃ r : PrecisionRun (List Float),
          PrecisionRun.start (f.afterCalls calls) target vs = .ok r ∧
          let s := r.complete vs.length
          s.ended = true ∧ (e ≤ target → s.items = [] ∧ s.run.source = vs) ∧
            (¬ e ≤ target → List.Forall₂ Answers vs s.items ∧ s.run.source = []) := by
  obtain ⟨e, hformula, hepsilon⟩ := h.epsilon_afterCalls
  refine ⟨e, hformula, hepsilon [], fun calls => ⟨hepsilon calls, ?_⟩⟩
  intro target hfinite hpositive
  have hnever : ¬ e ≤ target → (f.afterCalls calls).NeverWithin target := fun habove =>
    Aggregator.neverWithin_of_epsilon habove hepsilon calls
  have hwithin : e ≤ target → (f.afterCalls calls).isWithin target = true := fun hle =>
    Aggregator.isWithin_of_epsilon (hepsilon calls) hle
  constructor
  · -- Any source, step by step.
    intro σ _ source
    obtain ⟨goal, rfl, hstart⟩ :=
      PrecisionRun.start_eq_ok (f.afterCalls calls) hfinite hpositive source
    refine ⟨_, hstart, fun hle => ?_, fun habove k => ?_⟩
    · obtain ⟨r, hr, hidle⟩ := PrecisionRun.idle_of_isWithin (hwithin hle) source
      obtain rfl := Except.ok.inj (hr.symm.trans hstart)
      exact hidle
    · obtain ⟨hitems, hleft, hreached⟩ := PrecisionRun.takes_all
        (r := ⟨Estimator.ofAggregator (f.afterCalls calls), goal, source⟩) (hnever habove) k
      exact ⟨hreached, hitems, hleft⟩
  · -- A list, to its end.
    intro vs
    obtain ⟨goal, rfl, hstart⟩ :=
      PrecisionRun.start_eq_ok (f.afterCalls calls) hfinite hpositive vs
    refine ⟨_, hstart, ?_⟩
    by_cases hle : e ≤ goal.value
    · obtain ⟨hitems, hrun, hended⟩ := PrecisionRun.complete_of_reached
        (r := ⟨Estimator.ofAggregator (f.afterCalls calls), goal, vs⟩) (hwithin hle) vs.length
      exact ⟨hended, fun _ => ⟨hitems, by rw [hrun]⟩, fun habove => absurd hle habove⟩
    · obtain ⟨hitems, hleft, hended⟩ := PrecisionRun.complete_of_neverWithin
        (r := ⟨Estimator.ofAggregator (f.afterCalls calls), goal, vs⟩) (hnever hle)
      exact ⟨hended, fun hle' => absurd hle' hle, fun _ => ⟨hitems, hleft⟩⟩

end Planned

/-- With one value planned from `[0, 1]` the half-width is above a half and below one. So a run to
one takes nothing, and a run to a half takes all, although a value was folded before it and there
are more values than planned. -/
theorem planned_all_or_nothing_single :
    ∃ f, @Aggregator.deterministicAt logAtFour 0.5 0.0 1.0 1 = .ok f ∧
      (∃ r, PrecisionRun.start f 1.0 [0.25, Numeric.nan, 7.0] = .ok r ∧
        (@PrecisionRun.complete _ logAtFour _ 3 r).run.source = [0.25, Numeric.nan, 7.0]) ∧
      ∃ r, PrecisionRun.start (@Aggregator.afterCalls logAtFour f [(none, 7.0)]) 0.5
          [0.25, Numeric.nan, 7.0] = .ok r ∧
        (@PrecisionRun.complete _ logAtFour _ 3 r).run.source = [] := by
  have hstart := @Aggregator.deterministicAt_of_checked logAtFour Aggregator.half
    Aggregator.unitDomain 1 one_ne_zero
  obtain ⟨e, hformula, -, hruns⟩ := @planned_all_or_nothing logAtFour _ _ _ _ _
    (@Aggregator.BuiltFromPlan.deterministicAt logAtFour _ _ _ _ _ hstart)
  rw [@seenHalfWidth_of_ne_zero logAtFour Aggregator.half 1 one_ne_zero
    Aggregator.unitDomain.toValueRange] at hformula
  cases hformula
  obtain ⟨-, hlists⟩ := (hruns []).2 1.0 (by decide) (by decide)
  obtain ⟨-, hlists'⟩ := (hruns [(none, 7.0)]).2 0.5 (by decide) (by decide)
  obtain ⟨r, hr, -, hidle, -⟩ := hlists [0.25, Numeric.nan, 7.0]
  obtain ⟨r', hr', -, -, hall⟩ := hlists' [0.25, Numeric.nan, 7.0]
  exact ⟨_, hstart, ⟨r, hr, (hidle (by decide +kernel)).2⟩, r', hr', (hall (by decide +kernel)).2⟩

end OnlineAggregation
