import OnlineAggregation.Proofs.Aggregator.FiniteHalfWidth
import OnlineAggregation.Proofs.Bound.SamplePlan
import OnlineAggregation.Proofs.Run.Sources

/-!
# Samples of the planned size

A sample is planned from a formula; an aggregator computes its half-width when it is built, or
anew with each value; a run looks at the half-width before it takes a value. Main statement: the
three agree. If `n` values are planned, the deterministic aggregator for `n` values has reached the
target before the first, and the aggregators that look at the data reach it with the `n`-th value at
the latest, whatever the values are and however many of them are refused on the way.
-/

namespace OnlineAggregation

open Numeric (NaturalLog)
open RunReport (estimates)

/-! ## §1 Aggregators within a target -/

namespace Aggregator

variable [NaturalLog]

omit [NaturalLog] in
theorem isWithin_of_epsilon {f : Aggregator} {e target : Float} (he : f.epsilon = .ok e)
    (hle : e ≤ target) : f.isWithin target = true := by
  simp [isWithin, he, hle]

/-- Over a declared domain the number of accepted values decides, and not which they are. -/
theorem Built.enough {f₀ : Aggregator} (hbuilt : Built f₀)
    (hdata : f₀.strategy.dependsOnData = true) {domain : ValueDomain}
    (hdomain : f₀.strategy.domain? = some domain) {n : ℕ} (hn : n ≠ 0) {target : Float}
    (hle : f₀.confidence.hoeffding n domain.width ≤ target) : f₀.Enough target n := by
  intro vs hvs
  rw [← acceptedValues_map] at hvs
  have hne : acceptedValues (vs.map (none, ·)) ≠ [] := by
    intro hnil
    rw [hnil] at hvs
    exact hn hvs.symm
  have hepsilon := hbuilt.epsilon_of_domain hdata hdomain hne
  rw [hvs] at hepsilon
  exact isWithin_of_epsilon hepsilon hle

end Aggregator

/-! ## §2 Runs to the planned target -/

section Planned

variable [NaturalLog]

/-- A run with an aggregator that is within the target takes nothing from the source. -/
theorem PrecisionRun.idle_of_isWithin {f : Aggregator} {goal : TargetPrecision}
    (hwithin : f.isWithin goal.value = true) {σ : Type} [Std.Stream σ Float] (source : σ) :
    ∃ r : PrecisionRun σ, PrecisionRun.start f goal.value source = .ok r ∧
      r.reached = true ∧ r.next? = none ∧
        ∀ m, (r.take m).items = [] ∧ (r.take m).run.source = source := by
  have hreached : (⟨Estimator.ofAggregator f, goal, source⟩ : PrecisionRun σ).reached = true :=
    hwithin
  refine ⟨_, start_of_checked f goal source, hreached, next?_of_reached hreached, ?_⟩
  intro m
  obtain ⟨hitems, hrun⟩ := take_of_reached hreached m
  rw [hrun]
  exact ⟨hitems, rfl⟩

/-- A run to a target that `n` values reach stops with the `n`-th accepted value at the latest. -/
theorem PrecisionRun.reached_of_enough {f : Aggregator} (hbuilt : Aggregator.Built f)
    (goal : TargetPrecision) {n : ℕ} (henough : f.Enough goal.value n) {σ : Type}
    [Std.Stream σ Float] (source : σ) {k : ℕ}
    (hsupply : n ≤ ((firstValues k source).filter Float.isFinite).length) :
    ∃ r : PrecisionRun σ, PrecisionRun.start f goal.value source = .ok r ∧
      let s := r.take k
      s.run.reached = true ∧ s.run.next? = none ∧ (estimates s.items).length ≤ n ∧
        s.run.estimator.aggregator.observations = (estimates s.items).length := by
  refine ⟨_, start_of_checked f goal source, ?_⟩
  intro s
  obtain ⟨hreached, hcount⟩ : s.run.reached = true ∧ (estimates s.items).length ≤ n :=
    reached_of_supply henough hsupply
  obtain ⟨hstate, haccepted⟩ := take_spec k ⟨Estimator.ofAggregator f, goal, source⟩
  refine ⟨hreached, next?_of_reached hreached, hcount, ?_⟩
  have hremembers := hbuilt.remembers ((firstValues s.items.length source).map (none, ·))
  rw [Aggregator.acceptedValues_map] at hremembers
  rw [show s.run.estimator.aggregator = f.afterValues (firstValues s.items.length source) from hstate,
    haccepted]
  exact hremembers.observations_eq

/-- **A plan is sufficient for every consumer**: if `n` values are planned for a target, then the
deterministic aggregator for `n` values can be built, its half-width is at most the target, and a
run with it to that target takes nothing from any source. The conservative and the large-sample
aggregator over the same domain can be built as well, and a run with either of them over any source
with `n` finite values stops within its target after at most `n` accepted values. -/
theorem plan_sufficient_for_runs (hlog : LogInRange) {confidence lower upper target : Float} {n : ℕ}
    (h : requiredSamples confidence lower upper target = .ok n) :
    (∃ f e, Aggregator.deterministicAt confidence lower upper n = .ok f ∧ f.epsilon = .ok e ∧
      e ≤ target ∧ ∀ (σ : Type) [Std.Stream σ Float] (source : σ),
        ∃ r : PrecisionRun σ, PrecisionRun.start f target source = .ok r ∧
          r.reached = true ∧ r.next? = none ∧
            ∀ m, (r.take m).items = [] ∧ (r.take m).run.source = source) ∧
    (∃ f, Aggregator.conservative confidence lower upper = .ok f) ∧
    (∃ f, Aggregator.largeSampleWithin confidence lower upper = .ok f) ∧
    ∀ f, Aggregator.conservative confidence lower upper = .ok f ∨
        Aggregator.largeSampleWithin confidence lower upper = .ok f →
      ∀ (σ : Type) [Std.Stream σ Float] (source : σ) (k : ℕ),
        n ≤ ((firstValues k source).filter Float.isFinite).length →
        ∃ r : PrecisionRun σ, PrecisionRun.start f target source = .ok r ∧
          let s := r.take k
          s.run.reached = true ∧ s.run.next? = none ∧ (estimates s.items).length ≤ n ∧
            s.run.estimator.aggregator.observations = (estimates s.items).length := by
  obtain ⟨level, domain, goal, rfl, rfl, rfl, rfl, hn, hle⟩ := exists_sufficient_of_ok hlog h
  have hconservative := Aggregator.conservative_of_checked level domain
  have hlargeSample := Aggregator.largeSampleWithin_of_checked level domain
  refine ⟨⟨_, _, Aggregator.deterministicAt_of_checked level domain hn, rfl, hle, ?_⟩,
    ⟨_, hconservative⟩, ⟨_, hlargeSample⟩, ?_⟩
  · intro σ _ source
    apply PrecisionRun.idle_of_isWithin
    exact Aggregator.isWithin_of_epsilon rfl hle
  · -- Both constructors give the same domain and level, so the same count is enough.
    intro f hf σ _ source k hsupply
    have hbuilt : Aggregator.Built f := by
      rcases hf with hf | hf
      · exact .conservative hf
      · exact .largeSampleWithin hf
    have henough : f.Enough goal.value n := by
      rcases hf with hf | hf
      · cases hconservative.symm.trans hf
        exact hbuilt.enough rfl rfl hn hle
      · cases hlargeSample.symm.trans hf
        exact hbuilt.enough rfl rfl hn hle
    exact PrecisionRun.reached_of_enough hbuilt goal henough source hsupply

end Planned

/-- Three values are planned, and a run over two rounds of a list stops with the third finite value,
although a NaN and an infinity come before it and one value is outside the domain. -/
theorem plan_sufficient_for_runs_three :
    @requiredSamples logAtFour 0.5 0.0 1.0 0.5 = .ok 3 ∧
      ∃ f r, @Aggregator.conservative logAtFour 0.5 0.0 1.0 = .ok f ∧
        PrecisionRun.start f 0.5
          (CyclicSource.ofList [Numeric.nan, 0.25, 7.0, Numeric.infinity] 2) = .ok r ∧
        (@PrecisionRun.take _ logAtFour _ 6 r).run.reached = true := by
  have hplan : @requiredSamples logAtFour 0.5 0.0 1.0 0.5 = .ok 3 := by decide +kernel
  obtain ⟨-, ⟨f, hf⟩, -, hruns⟩ := @plan_sufficient_for_runs logAtFour logInRange_logAtFour
    _ _ _ _ _ hplan
  obtain ⟨r, hr, hreached, -⟩ := hruns f (Or.inl hf) CyclicSource
    (CyclicSource.ofList [Numeric.nan, 0.25, 7.0, Numeric.infinity] 2) 6 (by decide)
  exact ⟨hplan, f, r, hf, hr, hreached⟩

end OnlineAggregation
