import OnlineAggregation.Proofs.Aggregator.Availability
import OnlineAggregation.Proofs.Aggregator.Monotone
import OnlineAggregation.Proofs.Bound.EqualEnds

/-!
# Half-widths over the observed range

Without a declared domain the range of the values seen stands in for it, and it can only be
narrower. Main statement: as long as all accepted values are from a domain, the half-width over the
observed range is at most the conservative one over that domain, also where the widths overflow;
and once both ends of the domain were seen, the two are the same to the last bit.
-/

namespace OnlineAggregation

open Binary64
open Numeric (NaturalLog)

/-! ## §1 Hulls inside a range -/

namespace ValueRange

variable {r s : ValueRange} {ys : List Float}

/-- A hull is no wider than a range that contains the values. -/
theorem IsHullOf.width_le (h : r.IsHullOf ys) (hlower : s.lower.isFinite = true)
    (hupper : s.upper.isFinite = true) (hinside : ∀ y ∈ ys, s.contains y = true) :
    r.width ≤ s.width := by
  obtain ⟨l, u, hspans⟩ := h.exists_spans
  obtain ⟨l', hl'⟩ := isFinite_iff_exists_reads.mp hlower
  obtain ⟨u', hu'⟩ := isFinite_iff_exists_reads.mp hupper
  -- The ends of the hull are values of the list, so they are inside.
  obtain ⟨x, hx, hxl⟩ := hspans.lower_mem
  obtain ⟨y, hy, hyu⟩ := hspans.upper_mem
  have hll : l' ≤ l :=
    EReal.coe_le_coe_iff.mp ((hl'.le_iff hxl).mp (contains_iff.mp (hinside x hx)).1)
  have huu : u ≤ u' :=
    EReal.coe_le_coe_iff.mp ((hyu.le_iff hu').mp (contains_iff.mp (hinside y hy)).2)
  rw [width, width, (hspans.upper.sub hspans.lower).le_iff (hu'.sub hl')]
  exact nearest_mono (sub_le_sub huu hll)

end ValueRange

/-- A domain is the hull of values from it that reach both its ends. -/
theorem ValueDomain.isHullOf (d : ValueDomain) {ys : List Float}
    (hinside : ∀ y ∈ ys, d.contains y = true) (hlower : ∃ y ∈ ys, (d.lower == y) = true)
    (hupper : ∃ y ∈ ys, (d.upper == y) = true) : d.IsHullOf ys :=
  ⟨d.lower_finite, d.upper_finite, d.lower_le_upper, hinside, hlower, hupper⟩

theorem ValueDomain.width_pos_iff (d : ValueDomain) : 0.0 < d.width ↔ d.lower < d.upper := by
  obtain ⟨l, hl⟩ := isFinite_iff_exists_reads.mp d.lower_finite
  obtain ⟨u, hu⟩ := isFinite_iff_exists_reads.mp d.upper_finite
  rw [ValueRange.width, hu.sub_pos_iff hl, hl.lt_iff hu, EReal.coe_lt_coe_iff]

/-! ## §2 The observed range as the domain -/

namespace Aggregator

section Reachable

variable [NaturalLog] {f : Aggregator} {ys : List Float}

/-- Without a domain the half-width is the formula over the hull of the values, if that has a
width. -/
theorem Remembers.epsilon_of_hull (h : f.Remembers ys) (hstrategy : f.strategy = .largeSample none)
    (hys : ys ≠ []) :
    ∃ r : ValueRange, r.IsHullOf ys ∧ f.epsilon =
      if 0.0 < r.width then .ok (f.confidence.hoeffding ys.length r.width)
      else .error .halfWidthUnavailable := by
  obtain ⟨r, hobserved, hhull⟩ := h.observed_of_ne_nil hys
  refine ⟨r, hhull, ?_⟩
  rw [epsilon, h.epsilon_eq_basis, basis?, hstrategy, hobserved, Strategy.basis?, h.observations_eq]
  by_cases hwidth : 0.0 < r.width
  · rw [if_pos hwidth, if_pos hwidth]
    rfl
  · rw [if_neg hwidth, if_neg hwidth]
    rfl

/-- Before the first value there is no half-width. -/
theorem Remembers.epsilon_of_nothing (h : f.Remembers [])
    (hstrategy : f.strategy = .largeSample none) : f.epsilon = .error .halfWidthUnavailable := by
  have hdata : f.strategy.dependsOnData = true := by
    rw [hstrategy]
    rfl
  rw [epsilon, h.epsilon_of_nil hdata rfl]

/-- **The observed range never widens the interval.** Two aggregators get the same values, in folds
into any accumulators: one of them without a domain, the other a conservative one over a domain from
which all accepted values are. Whenever the first has a half-width, so has the other, and that of
the first is at most as great. And once the least and the greatest accepted value are the ends of a
domain that is not a point, zeros of either sign being equal, both have the same half-width to the
last bit. -/
theorem observed_halfWidth_le_declared (hlog : LogInRange) (c : ConfidenceLevel) (d : ValueDomain) :
    ∃ f g, Aggregator.largeSample c.value = .ok f ∧
      Aggregator.conservative c.value d.lower d.upper = .ok g ∧
      ∀ calls calls' : List Call, calls.map Prod.snd = calls'.map Prod.snd →
        (acceptedValues calls).length < 2 ^ 64 →
        (∀ y ∈ acceptedValues calls, d.contains y = true) →
        (∀ e, (f.afterCalls calls).epsilon = .ok e →
          ∃ e', (g.afterCalls calls').epsilon = .ok e' ∧ e ≤ e') ∧
        (d.lower < d.upper → (∃ y ∈ acceptedValues calls, (d.lower == y) = true) →
          (∃ y ∈ acceptedValues calls, (d.upper == y) = true) →
          ∃ e, (f.afterCalls calls).epsilon = .ok e ∧ (g.afterCalls calls').epsilon = .ok e) := by
  have hf : Aggregator.largeSample c.value = .ok ⟨c, .largeSample none, 0, none, none⟩ :=
    start_of_dependsOnData c rfl
  have hg := conservative_of_checked c d
  refine ⟨_, _, hf, hg, fun calls calls' hvalues hword hinside => ?_⟩
  set ys := acceptedValues calls with hys
  have hys' : acceptedValues calls' = ys := by rw [hys, acceptedValues, acceptedValues, hvalues]
  have hremembers := (Built.largeSample hf).remembers calls
  obtain ⟨hconfidence, hstrategy⟩ :=
    afterCalls_settings (⟨c, .largeSample none, 0, none, none⟩ : Aggregator) calls
  rw [← hys] at hremembers
  rcases eq_or_ne ys [] with hnil | hne
  · -- Nothing was accepted yet: there is no half-width, and no end was seen.
    rw [hnil] at hremembers ⊢
    rw [hremembers.epsilon_of_nothing hstrategy]
    constructor
    · intro e he
      cases he
    · rintro - ⟨y, hy, -⟩ -
      exact absurd hy List.not_mem_nil
  · obtain ⟨r, hhull, hobserved⟩ := hremembers.epsilon_of_hull hstrategy hne
    have hdeclared : Aggregator.epsilon _ = .ok (c.hoeffding ys.length d.width) :=
      hys' ▸ (Built.conservative hg).epsilon_of_domain rfl rfl (hys'.symm ▸ hne)
    rw [hobserved, hdeclared, hconfidence]
    constructor
    · intro e he
      split at he
      · rename_i hwidth
        cases he
        obtain ⟨l, -, -, hl⟩ := c.exists_reads_logTerm hlog
        have hnonneg : 0.0 ≤ r.width := by
          obtain ⟨a, ha⟩ := exists_reads (isNaN_eq_false_of_lt hwidth).2
          exact nonneg_of_reads ha ((reads_zero.lt_iff ha).mp hwidth).le
        refine ⟨_, rfl, ConfidenceLevel.hoeffding_mono hlog hl.le_self
          (List.length_pos_of_ne_nil hne) le_rfl hword hnonneg ?_⟩
        exact hhull.width_le d.lower_finite d.upper_finite hinside
      · cases he
    · intro hlt hlower hupper
      -- A list has one hull only, and here the domain is one.
      have hsame := hhull.sameEnds (d.isHullOf hinside hlower hupper)
      have hwidth : 0.0 < r.width :=
        (hsame.width_pos_iff hhull.lower_finite hhull.upper_finite).mpr (d.width_pos_iff.mpr hlt)
      rw [if_pos hwidth, hsame.width_eq hhull.lower_finite hhull.upper_finite hwidth]
      exact ⟨_, rfl, rfl⟩

end Reachable

/-- A value from inside leaves the observed range half as wide. Then the least end is seen as the
other zero and the greatest as it is, with a NaN between them and a foreign accumulator. -/
theorem observed_halfWidth_le_declared_zeros :
    ∃ f g, @Aggregator.largeSample logAtFour half.value = .ok f ∧
      @Aggregator.conservative logAtFour half.value unitDomain.lower unitDomain.upper = .ok g ∧
      (∃ e e', (@afterCalls logAtFour f [(none, 0.5), (none, -0.0)]).epsilon = .ok e ∧
        (@afterCalls logAtFour g [(none, 0.5), (none, -0.0)]).epsilon = .ok e' ∧ e ≤ e') ∧
      ∃ e, (@afterCalls logAtFour f
          [(none, -0.0), (none, Numeric.nan), (none, 1.0)]).epsilon = .ok e ∧
        (@afterCalls logAtFour g
          [(none, -0.0), (none, Numeric.nan), (some (.single 7.0), 1.0)]).epsilon = .ok e := by
  obtain ⟨f, g, hf, hg, hvalues⟩ :=
    @observed_halfWidth_le_declared logAtFour logInRange_logAtFour half unitDomain
  refine ⟨f, g, hf, hg, ?_, ?_⟩
  · obtain ⟨hle, -⟩ := hvalues [(none, 0.5), (none, -0.0)] [(none, 0.5), (none, -0.0)] rfl
      (by decide) (by decide)
    have hready : f.strategy.Ready (acceptedValues [(none, 0.5), (none, -0.0)]) := by
      rw [@largeSample_half logAtFour] at hf
      cases hf
      rw [Strategy.ready_largeSample_iff]
      decide
    have hbuilt := @Built.largeSample logAtFour _ _ hf
    obtain ⟨e, he⟩ := (@Built.exists_epsilon_iff logAtFour f hbuilt _).mpr hready
    obtain ⟨e', he', hee⟩ := hle e he
    exact ⟨e, e', he, he', hee⟩
  · obtain ⟨-, hequal⟩ := hvalues [(none, -0.0), (none, Numeric.nan), (none, 1.0)]
      [(none, -0.0), (none, Numeric.nan), (some (.single 7.0), 1.0)] rfl (by decide) (by decide)
    exact hequal (by decide) (by decide) (by decide)

end Aggregator

end OnlineAggregation
