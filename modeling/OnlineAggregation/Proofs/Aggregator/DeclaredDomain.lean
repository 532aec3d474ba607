import OnlineAggregation.Proofs.Aggregator.FiniteHalfWidth

/-!
# Half-widths over a declared domain

Over a declared domain a half-width depends on the confidence, the domain and the number of accepted
values, or on the plan. Main statements: two aggregators with the same bound keep it under any calls
in which the same places are accepted, whatever the values are and whichever kinds of bound they
have; and the half-width of a plan is there from the start and never moves.
-/

namespace OnlineAggregation

open Numeric (NaturalLog)

/-- Both values are accepted, or both are refused. -/
def AcceptedAlike (v w : Float) : Prop :=
  v.isFinite = w.isFinite

instance : DecidableRel AcceptedAlike :=
  fun v w => inferInstanceAs (Decidable (v.isFinite = w.isFinite))

namespace Aggregator

variable [NaturalLog]

/-! ## §1 The same bound -/

/-- Half-widths that rest on the same: neither the values nor the name of the strategy count. -/
structure SameBound (domain : ValueDomain) (f g : Aggregator) : Prop where
  confidence_eq : f.confidence = g.confidence
  domain_left : f.strategy.domain? = some domain
  domain_right : g.strategy.domain? = some domain
  dependsOnData_eq : f.strategy.dependsOnData = g.strategy.dependsOnData
  observations_eq : f.observations = g.observations
  epsilon_eq : f.epsilon? = g.epsilon?

omit [NaturalLog] in
theorem SameBound.refl {domain : ValueDomain} {f : Aggregator}
    (h : f.strategy.domain? = some domain) : SameBound domain f f :=
  ⟨rfl, h, h, rfl, rfl, rfl⟩

/-- The half-width in store does not come from the range of the values seen. -/
theorem stored_of_domain {f : Aggregator} {domain : ValueDomain}
    (hdomain : f.strategy.domain? = some domain) {seen : ℕ} (hseen : seen ≠ 0)
    (observed : ValueRange) : f.stored seen observed =
      if f.strategy.dependsOnData then some (f.confidence.hoeffding seen domain.width)
      else f.epsilon? := by
  unfold stored
  split
  · rename_i hdata
    rw [Strategy.halfWidth_of_domain f.confidence hseen hdata hdomain observed]
    rfl
  · rfl

variable {domain : ValueDomain} {f g : Aggregator}

/-- Any two accepted values have the same effect on the bound. -/
theorem SameBound.withValue (h : SameBound domain f g) (v w : Float) :
    SameBound domain (f.withValue v) (g.withValue w) where
  confidence_eq := h.confidence_eq
  domain_left := h.domain_left
  domain_right := h.domain_right
  dependsOnData_eq := h.dependsOnData_eq
  observations_eq := congrArg (· + 1) h.observations_eq
  epsilon_eq := by
    -- The formula at the same count, or what was settled at the start.
    change f.stored (f.observations + 1) _ = g.stored (g.observations + 1) _
    rw [stored_of_domain h.domain_left (Nat.succ_ne_zero _),
      stored_of_domain h.domain_right (Nat.succ_ne_zero _), h.confidence_eq, h.dependsOnData_eq,
      h.observations_eq, h.epsilon_eq]

/-- And so have any two refused values, namely none. -/
theorem SameBound.afterCall (h : SameBound domain f g) {v w : Float} (hvw : AcceptedAlike v w)
    (a b : Option (Accumulator Float)) :
    SameBound domain (f.afterCall (a, v)) (g.afterCall (b, w)) := by
  cases hv : v.isFinite with
  | true =>
    rw [f.afterCall_of_finite a hv, g.afterCall_of_finite b (hvw.symm.trans hv)]
    exact h.withValue v w
  | false =>
    rw [f.afterCall_of_not_finite a hv, g.afterCall_of_not_finite b (hvw.symm.trans hv)]
    exact h

/-- **The values do not matter**: the same bound is kept by all calls that are accepted at the same
places, with any accumulators and with values inside or outside the domain. -/
theorem SameBound.afterCalls {calls calls' : List Call} (h : SameBound domain f g)
    (halike : List.Forall₂ (fun c d => AcceptedAlike c.2 d.2) calls calls') :
    SameBound domain (f.afterCalls calls) (g.afterCalls calls') := by
  induction halike generalizing f g with
  | nil => exact h
  | @cons c d _ _ hcd _ ih => exact ih (h.afterCall hcd c.1 d.1)

/-- The same calls are accepted at the same places. -/
theorem SameBound.afterSameCalls (h : SameBound domain f g) (calls : List Call) :
    SameBound domain (f.afterCalls calls) (g.afterCalls calls) :=
  h.afterCalls (List.forall₂_same.mpr fun _ _ => rfl)

/-! ## §2 Planned half-widths -/

/-- The half-width that the deterministic aggregator for `n` values has at every moment. -/
def IsPlannedHalfWidth (confidence lower upper : Float) (n : ℕ) (e : Float) : Prop :=
  ∃ f, deterministicAt confidence lower upper n = .ok f ∧
    ∀ calls : List Call, (f.afterCalls calls).epsilon = .ok e

/-- What does not look at the data stays as it was settled. -/
theorem Built.epsilon_afterCalls {f₀ : Aggregator} (hbuilt : Built f₀)
    (hdata : f₀.strategy.dependsOnData = false) (calls : List Call) :
    (f₀.afterCalls calls).epsilon = f₀.epsilon := by
  obtain ⟨hconfidence, hstrategy⟩ := f₀.afterCalls_settings calls
  have hplanned := (hbuilt.remembers calls).planned (hstrategy ▸ hdata)
  have hsettled : (f₀.afterCalls calls).planned? = f₀.planned? := by
    rw [planned?, planned?, hconfidence, hstrategy]
  rw [epsilon, epsilon, hplanned, hsettled, hbuilt.isFresh.epsilon_eq]

/-- Only checked parameters make a plan. -/
theorem checked_of_deterministicAt {confidence lower upper : Float} {n : ℕ}
    (h : deterministicAt confidence lower upper n = .ok f) :
    ∃ (level : ConfidenceLevel) (domain : ValueDomain), level.value = confidence ∧
      domain.lower = lower ∧ domain.upper = upper ∧ n ≠ 0 := by
  obtain ⟨domain, hdomain, hstart⟩ := bind_eq_ok_iff.mp h
  obtain ⟨hlower, hupper⟩ := ValueDomain.ends_of_check hdomain
  split at hstart
  · cases hstart
  · rename_i hn
    exact ⟨f.confidence, domain, (settings_of_start hstart).1, hlower, hupper, hn⟩

/-- The half-width of a plan is that of the planned count. -/
theorem isPlannedHalfWidth_of_checked (level : ConfidenceLevel) (domain : ValueDomain) {n : ℕ}
    (hn : n ≠ 0) :
    IsPlannedHalfWidth level.value domain.lower domain.upper n
      (level.hoeffding n domain.width) := by
  have hstart := deterministicAt_of_checked level domain hn
  refine ⟨_, hstart, fun calls => ?_⟩
  exact Built.epsilon_afterCalls (.deterministicAt hstart) rfl calls

end Aggregator

end OnlineAggregation
