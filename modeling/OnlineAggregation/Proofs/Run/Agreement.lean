import OnlineAggregation.Proofs.Run.SideBySide

/-!
# Strategies that agree

Over a declared domain the large-sample and the conservative strategy use the same formula with the
same count. Main statement: the two cannot be told apart. They accept the same parameters, give the
same answers after the same calls, and run in the same way over every source; and after `n` accepted
values both have the half-width that the deterministic strategy has for `n` planned values.
-/

namespace OnlineAggregation

open Numeric (NaturalLog)
open RunReport (estimates)

variable [NaturalLog]

/-! ## §1 The same answers -/

namespace Aggregator

/-- Whatever a caller asks two aggregators, the answers are the same. -/
structure AnswersAlike (f g : Aggregator) : Prop where
  confidence_eq : f.confidence = g.confidence
  observations_eq : f.observations = g.observations
  epsilon_eq : f.epsilon = g.epsilon
  estimate_eq : ∀ a, f.estimate a = g.estimate a
  accumulator_eq : ∀ a v, (f.fold a v).map Folded.accumulator = (g.fold a v).map Folded.accumulator

theorem SameBound.answersAlike {domain : ValueDomain} {f g : Aggregator}
    (h : SameBound domain f g) : f.AnswersAlike g where
  confidence_eq := h.confidence_eq
  observations_eq := h.observations_eq
  epsilon_eq := by rw [epsilon, epsilon, h.epsilon_eq]
  estimate_eq a := by rw [estimate, estimate, epsilon, epsilon, h.epsilon_eq, h.confidence_eq]
  accumulator_eq a v := by rw [map_accumulator_fold, map_accumulator_fold]

/-- Parameters are refused by both constructors, for the same cause, or they pass all checks. -/
theorem refused_or_checked (confidence lower upper : Float) :
    (∃ cause, largeSampleWithin confidence lower upper = .error cause ∧
      Aggregator.conservative confidence lower upper = .error cause) ∨
    ∃ (level : ConfidenceLevel) (domain : ValueDomain),
      level.value = confidence ∧ domain.lower = lower ∧ domain.upper = upper := by
  -- Both look at the ends first, and leave the confidence to the common start.
  cases hdomain : ValueDomain.check lower upper with
  | error cause =>
    refine Or.inl ⟨cause, ?_, ?_⟩
    · rw [largeSampleWithin, hdomain]
      rfl
    · rw [Aggregator.conservative, hdomain]
      rfl
  | ok domain =>
    cases hlevel : ConfidenceLevel.check confidence with
    | error cause =>
      refine Or.inl ⟨cause, ?_, ?_⟩
      · rw [largeSampleWithin, hdomain]
        simp [start, hlevel, bind, Except.bind]
      · rw [Aggregator.conservative, hdomain]
        simp [start, hlevel, bind, Except.bind]
    | ok level =>
      obtain ⟨hlower, hupper⟩ := ValueDomain.ends_of_check hdomain
      exact Or.inr ⟨level, domain, ConfidenceLevel.value_of_check hlevel, hlower, hupper⟩

end Aggregator

/-! ## §2 The same runs -/

section Runs

variable {σ : Type} [Std.Stream σ Float] {domain : ValueDomain}

omit [NaturalLog] [Std.Stream σ Float] in
/-- Equal values keep accumulators equal. -/
theorem carries_eq : Carries (· = ·) (· = ·) where
  alike hvw := congrArg Float.isFinite hvw
  single hvw := congrArg Accumulator.single hvw
  insert hab hvw := congrArg₂ Accumulator.insert hab hvw

omit [NaturalLog] [Std.Stream σ Float] in
theorem ItemsRelated.eq {i i' : Item} (h : ItemsRelated (· = ·) (· = ·) i i') : i = i' := by
  cases h with
  | estimates hab epsilon confidence => rw [hab]
  | refusals hvw => rw [hvw]

omit [NaturalLog] [Std.Stream σ Float] in
private theorem eq_of_optionRel {a b : Option (Accumulator Float)}
    (h : Option.Rel (· = ·) a b) : a = b := by
  cases h with
  | none => rfl
  | some hab => rw [hab]

/-- Two stretches of runs over one source that show the same and have taken the same. -/
structure PrecisionRun.Stretch.ShowAlike (s s' : PrecisionRun.Stretch σ) : Prop where
  items_eq : s.items = s'.items
  ended_eq : s.ended = s'.ended
  source_eq : s.run.source = s'.run.source
  reached_eq : s.run.reached = s'.run.reached
  accumulator_eq : s.run.estimator.accumulator? = s'.run.estimator.accumulator?
  aggregator : s.run.estimator.aggregator.AnswersAlike s'.run.estimator.aggregator

/-- Aggregators with the same bound run in the same way. -/
theorem Aggregator.SameBound.take_showAlike {f g : Aggregator} (h : SameBound domain f g)
    (goal : TargetPrecision) (source : σ) (k : ℕ) :
    (PrecisionRun.take k ⟨Estimator.ofAggregator f, goal, source⟩).ShowAlike
      (PrecisionRun.take k ⟨Estimator.ofAggregator g, goal, source⟩) := by
  have hrelated : RunsRelated domain (· = ·) (· = ·)
      (⟨Estimator.ofAggregator f, goal, source⟩ : PrecisionRun σ)
      (⟨Estimator.ofAggregator g, goal, source⟩ : PrecisionRun σ) :=
    ⟨h, .none, rfl, sourcesRelated_self source⟩
  obtain ⟨hitems, hlast, hended⟩ := hrelated.take carries_eq k
  have hsame : List.Forall₂ (· = ·) _ _ := hitems.imp fun _ _ => ItemsRelated.eq
  rw [List.forall₂_eq_eq_eq] at hsame
  refine ⟨hsame, hended, ?_, hlast.reached_eq, ?_, hlast.bound.answersAlike⟩
  · rw [PrecisionRun.source_take, PrecisionRun.source_take, hsame]
  · exact eq_of_optionRel hlast.accumulators

end Runs

/-! ## §3 The three strategies -/

section Strategies

/-- Both half-widths are the one that is planned for `n` values. -/
def HavePlanned (confidence lower upper : Float) (n : ℕ) (f g : Aggregator) : Prop :=
  n ≠ 0 → ∃ e, Aggregator.IsPlannedHalfWidth confidence lower upper n e ∧
    f.epsilon = .ok e ∧ g.epsilon = .ok e

variable {level : ConfidenceLevel} {domain : ValueDomain} {f₀ g₀ : Aggregator}

/-- With checked parameters both aggregators are over the same domain. -/
theorem sameBound_of_checked
    (hf : Aggregator.largeSampleWithin level.value domain.lower domain.upper = .ok f₀)
    (hg : Aggregator.conservative level.value domain.lower domain.upper = .ok g₀) :
    Aggregator.SameBound domain f₀ g₀ := by
  cases hf.symm.trans (Aggregator.largeSampleWithin_of_checked level domain)
  cases hg.symm.trans (Aggregator.conservative_of_checked level domain)
  exact ⟨rfl, rfl, rfl, rfl, rfl, rfl⟩

/-- Once a value is accepted, the half-width is that of a plan for as many values as are accepted. -/
theorem havePlanned_afterCalls
    (hf : Aggregator.largeSampleWithin level.value domain.lower domain.upper = .ok f₀)
    (hg : Aggregator.conservative level.value domain.lower domain.upper = .ok g₀)
    (calls : List Aggregator.Call) :
    HavePlanned level.value domain.lower domain.upper (Aggregator.acceptedValues calls).length
      (f₀.afterCalls calls) (g₀.afterCalls calls) := by
  intro hn
  have hys : Aggregator.acceptedValues calls ≠ [] := mt List.length_eq_zero_iff.mpr hn
  have hsame := ((sameBound_of_checked hf hg).afterSameCalls calls).answersAlike
  have hepsilon : (f₀.afterCalls calls).epsilon =
      .ok (level.hoeffding (Aggregator.acceptedValues calls).length domain.width) := by
    have hbuilt := Aggregator.Built.largeSampleWithin hf
    cases hf.symm.trans (Aggregator.largeSampleWithin_of_checked level domain)
    exact hbuilt.epsilon_of_domain rfl rfl hys
  exact ⟨_, Aggregator.isPlannedHalfWidth_of_checked level domain hn, hepsilon,
    hsame.epsilon_eq.symm.trans hepsilon⟩

/-- A run is one more sequence of calls, and its estimates are as many as its accepted values. -/
theorem aggregator_take {σ : Type} [Std.Stream σ Float] (f₀ : Aggregator)
    (calls : List Aggregator.Call) (goal : TargetPrecision) (source : σ) (k : ℕ) :
    let s := PrecisionRun.take k ⟨Estimator.ofAggregator (f₀.afterCalls calls), goal, source⟩
    let all := calls ++ (firstValues s.items.length source).map (none, ·)
    s.run.estimator.aggregator = f₀.afterCalls all ∧
      (Aggregator.acceptedValues all).length =
        (Aggregator.acceptedValues calls).length + (estimates s.items).length := by
  intro s all
  obtain ⟨hstate, hcount⟩ := PrecisionRun.take_spec k
    ⟨Estimator.ofAggregator (f₀.afterCalls calls), goal, source⟩
  constructor
  · rw [Aggregator.afterCalls_append]
    exact hstate
  · rw [Aggregator.acceptedValues_append, Aggregator.acceptedValues_map, List.length_append]
    exact congrArg _ hcount.symm

/-- **The strategies agree over a declared domain**. The large-sample and the conservative
constructor refuse the same parameters for the same cause. The aggregators that they build answer
alike after any calls, and so do the runs set up with them: they show the same items, take the same
values and end together. After `n` accepted values, in calls or in runs, both have the half-width
that the deterministic aggregator for `n` values has at every moment. -/
theorem strategies_agree (confidence lower upper : Float) :
    ((Aggregator.largeSampleWithin confidence lower upper).map fun _ => ()) =
      ((Aggregator.conservative confidence lower upper).map fun _ => ()) ∧
    ∀ f₀ g₀, Aggregator.largeSampleWithin confidence lower upper = .ok f₀ →
      Aggregator.conservative confidence lower upper = .ok g₀ →
      ∀ calls : List Aggregator.Call,
        let f := f₀.afterCalls calls
        let g := g₀.afterCalls calls
        f.AnswersAlike g ∧
        HavePlanned confidence lower upper (Aggregator.acceptedValues calls).length f g ∧
        ∀ (target : Float) (σ : Type) [Std.Stream σ Float] (source : σ),
          ((PrecisionRun.start f target source).map fun _ => ()) =
            ((PrecisionRun.start g target source).map fun _ => ()) ∧
          ∀ r r', PrecisionRun.start f target source = .ok r →
            PrecisionRun.start g target source = .ok r' → ∀ k,
              let s := r.take k
              let s' := r'.take k
              s.ShowAlike s' ∧ s.run.source = leftover s.items.length source ∧
                HavePlanned confidence lower upper
                  ((Aggregator.acceptedValues calls).length + (estimates s.items).length)
                  s.run.estimator.aggregator s'.run.estimator.aggregator := by
  rcases Aggregator.refused_or_checked confidence lower upper with ⟨cause, hf, hg⟩ |
    ⟨level, domain, rfl, rfl, rfl⟩
  · rw [hf, hg]
    exact ⟨rfl, fun f₀ g₀ h => nomatch h⟩
  have hf := Aggregator.largeSampleWithin_of_checked level domain
  have hg := Aggregator.conservative_of_checked level domain
  refine ⟨by rw [hf, hg]; rfl, ?_⟩
  intro f₀ g₀ hf₀ hg₀ calls f g
  have hbound : Aggregator.SameBound domain f g :=
    (sameBound_of_checked hf₀ hg₀).afterSameCalls calls
  refine ⟨hbound.answersAlike, havePlanned_afterCalls hf₀ hg₀ calls, ?_⟩
  intro target σ _ source
  constructor
  · rw [PrecisionRun.start, PrecisionRun.start]
    cases TargetPrecision.check target <;> rfl
  · intro r r' hr hr' k s s'
    obtain ⟨goal, hgoal, hr⟩ := bind_eq_ok_iff.mp hr
    obtain ⟨goal', hgoal', hr'⟩ := bind_eq_ok_iff.mp hr'
    obtain rfl : goal = goal' := Except.ok.inj (hgoal.symm.trans hgoal')
    cases hr
    cases hr'
    have hshow : s.ShowAlike s' := hbound.take_showAlike goal source k
    refine ⟨hshow, PrecisionRun.source_take k _, ?_⟩
    -- Both runs have folded the same values after the calls, so they count as calls themselves.
    obtain ⟨hstate, hcount⟩ := aggregator_take f₀ calls goal source k
    obtain ⟨hstate', -⟩ := aggregator_take g₀ calls goal source k
    have hlast : s.run.estimator.aggregator = f₀.afterCalls
        (calls ++ (firstValues s.items.length source).map (none, ·)) := hstate
    have hlast' : s'.run.estimator.aggregator = g₀.afterCalls
        (calls ++ (firstValues s.items.length source).map (none, ·)) := by
      rw [hshow.items_eq]
      exact hstate'
    rw [← hcount, hlast, hlast']
    exact havePlanned_afterCalls hf₀ hg₀ _

end Strategies

omit [NaturalLog] in
/-- After one accepted and one refused value at even odds over `[0, 1]`, with two values from
outside the domain and an infinity still to come. -/
theorem strategies_agree_half :
    ∃ f₀ g₀ r r', @Aggregator.largeSampleWithin logAtFour 0.5 0.0 1.0 = .ok f₀ ∧
      @Aggregator.conservative logAtFour 0.5 0.0 1.0 = .ok g₀ ∧
      PrecisionRun.start (@Aggregator.afterCalls logAtFour f₀ [(none, 0.25), (none, Numeric.nan)]) 0.5
        [7.0, Numeric.infinity, -1.0] = .ok r ∧
      PrecisionRun.start (@Aggregator.afterCalls logAtFour g₀ [(none, 0.25), (none, Numeric.nan)]) 0.5
        [7.0, Numeric.infinity, -1.0] = .ok r' ∧
      (@PrecisionRun.take _ logAtFour _ 4 r).items = (@PrecisionRun.take _ logAtFour _ 4 r').items ∧
      ∃ e, @Aggregator.IsPlannedHalfWidth logAtFour 0.5 0.0 1.0 1 e ∧
        (@Aggregator.afterCalls logAtFour f₀ [(none, 0.25), (none, Numeric.nan)]).epsilon = .ok e := by
  have hf := @Aggregator.largeSampleWithin_of_checked logAtFour Aggregator.half
    Aggregator.unitDomain
  have hg := @Aggregator.conservative_of_checked logAtFour Aggregator.half Aggregator.unitDomain
  obtain ⟨-, hagree⟩ := @strategies_agree logAtFour 0.5 0.0 1.0
  obtain ⟨-, hplanned, hruns⟩ := hagree _ _ hf hg [(none, 0.25), (none, Numeric.nan)]
  have hstart := fun f => PrecisionRun.start_of_checked f ⟨0.5, by decide, by decide⟩
    [7.0, Numeric.infinity, -1.0]
  obtain ⟨-, hshow⟩ := hruns 0.5 (List Float) [7.0, Numeric.infinity, -1.0]
  obtain ⟨⟨hitems, -⟩, -⟩ := hshow _ _ (hstart _) (hstart _) 4
  obtain ⟨e, he, hepsilon, -⟩ := hplanned (by decide)
  exact ⟨_, _, _, _, hf, hg, hstart _, hstart _, hitems, e, he, hepsilon⟩

end OnlineAggregation
