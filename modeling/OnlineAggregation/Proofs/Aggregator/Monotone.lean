import OnlineAggregation.Proofs.Binary64.Monotone
import OnlineAggregation.Proofs.Aggregator.FiniteHalfWidth

/-!
# Half-widths that never grow

A half-width has three arguments: the confidence, the count and the width of the domain. Main
statement: it is monotone in all three at once, whichever steps of the formula overflow or are
rounded together; and so over a declared domain no value that comes in, accepted or refused, makes
the half-width of an aggregator any greater.
-/

namespace OnlineAggregation

open Binary64
open Numeric (NaturalLog ln)

/-! ## §1 The confidence -/

/-- What is assumed of the logarithm beside its range: from 2 to `2 ^ 54` it never falls. -/
def LogMonotone [NaturalLog] : Prop :=
  ∀ x y : Float, 2.0 ≤ x → x ≤ y → y ≤ 18014398509481984.0 → ln x ≤ ln y

/-- A logarithm of two values never falls if the greater one begins at `place`. -/
theorem logMonotone_of_step {place : Float} {before after : UInt64}
    (hstep : Float.ofBits before ≤ Float.ofBits after) :
    @LogMonotone ⟨fun x => Float.ofBits (if place ≤ x then after else before)⟩ := by
  intro x y _ hxy _
  obtain ⟨hbefore, hafter⟩ := isNaN_eq_false_of_le hstep
  obtain ⟨a, ha⟩ := exists_reads hbefore
  obtain ⟨b, hb⟩ := exists_reads hafter
  change Float.ofBits (if place ≤ x then after else before) ≤
    Float.ofBits (if place ≤ y then after else before)
  by_cases hx : place ≤ x
  · -- Past the step at `x` is past it at `y` too.
    rw [if_pos hx, if_pos (trans_le_le hx hxy)]
    exact hb.le_self
  · rw [if_neg hx]
    split
    · exact hstep
    · exact ha.le_self

/-- A logarithm that is right at 4 and at `2 ^ 54`, where even odds and the greatest confidence ask
for it. -/
@[reducible] def logAtEnds : NaturalLog where
  ln x := Float.ofBits (if 18014398509481984.0 ≤ x then 0x4042b708872320e2 else 0x3ff62e42fefa39ef)

theorem logMonotone_logAtEnds : @LogMonotone logAtEnds :=
  logMonotone_of_step (by decide)

theorem logInRange_logAtEnds : @LogInRange logAtEnds := by
  intro x _ _
  change 0.69 ≤ Float.ofBits (if 18014398509481984.0 ≤ x then _ else _) ∧
    Float.ofBits (if 18014398509481984.0 ≤ x then _ else _) ≤ 37.5
  split
  · decide
  · decide

section Formula

variable [NaturalLog]

/-- A higher confidence has a greater logarithm. -/
theorem ConfidenceLevel.logTerm_mono (hmono : LogMonotone) {c c' : ConfidenceLevel}
    (h : c.value ≤ c'.value) : c.logTerm ≤ c'.logTerm :=
  hmono _ _ c.ratio_mem.1 (ratio_mono h) c'.ratio_mem.2

/-! ## §2 All arguments together -/

/-- Over declared domains there are two half-widths, neither is NaN, and they are in order. -/
theorem seenHalfWidth_mono (hlog : LogInRange) (hmono : LogMonotone) {c c' : ConfidenceLevel}
    {n n' : ℕ} {d d' : ValueDomain} (hc : c.value ≤ c'.value) (hn : 1 ≤ n') (hnn : n' ≤ n)
    (hword : n < 2 ^ 64) (hwidth : d.width ≤ d'.width) :
    ∃ e e', seenHalfWidth c.value n d.toValueRange = .ok e ∧
      seenHalfWidth c'.value n' d'.toValueRange = .ok e' ∧
      e.isNaN = false ∧ e'.isNaN = false ∧ e ≤ e' := by
  have hle : c.hoeffding n d.width ≤ c'.hoeffding n' d'.width := by
    apply ConfidenceLevel.hoeffding_mono hlog (ConfidenceLevel.logTerm_mono hmono hc) hn hnn hword
    · exact d.width_nonneg
    · exact hwidth
  -- NaN is in order with nothing.
  obtain ⟨hnan, hnan'⟩ := isNaN_eq_false_of_le hle
  exact ⟨_, _, seenHalfWidth_of_ne_zero c (by omega) d.toValueRange,
    seenHalfWidth_of_ne_zero c' (by omega) d'.toValueRange, hnan, hnan', hle⟩

end Formula

/-! ## §3 Along a run of calls -/

namespace Aggregator

section Runs

variable [NaturalLog]

/-- Over a declared domain the half-width after further calls is at most the one before them. -/
theorem Built.epsilon_antitone (hlog : LogInRange) {f₀ : Aggregator} (hbuilt : Built f₀)
    (hdata : f₀.strategy.dependsOnData = true) {domain : ValueDomain}
    (hdomain : f₀.strategy.domain? = some domain) (calls more : List Call)
    (hys : acceptedValues calls ≠ [])
    (hword : (acceptedValues (calls ++ more)).length < 2 ^ 64) :
    ∃ e e', (f₀.afterCalls calls).epsilon = .ok e ∧
      (f₀.afterCalls (calls ++ more)).epsilon = .ok e' ∧ e' ≤ e := by
  have hcount : (acceptedValues calls).length ≤ (acceptedValues (calls ++ more)).length := by
    simp [acceptedValues_append]
  have hmore : acceptedValues (calls ++ more) ≠ [] := by
    simp [acceptedValues_append, hys]
  -- Confidence and domain are those of the start, and only the counts differ.
  refine ⟨_, _, hbuilt.epsilon_of_domain hdata hdomain hys,
    hbuilt.epsilon_of_domain hdata hdomain hmore, ?_⟩
  apply f₀.confidence.hoeffding_antitone hlog (List.length_pos_of_ne_nil hys) hcount hword
  exact domain.width_nonneg

/-- **The bound is monotone**: a half-width at a lower confidence, for more values or over a
narrower domain is at most the other one, and neither is NaN. So along any run of calls over a
declared domain, conservative or large-sample, the half-width never grows from one accepted value
to a later one, whatever the values are, whatever is refused in between and whichever accumulators
are handed in. -/
theorem halfWidth_monotone (hlog : LogInRange) (hmono : LogMonotone) :
    (∀ (c c' : ConfidenceLevel) (n n' : ℕ) (d d' : ValueDomain), c.value ≤ c'.value →
      1 ≤ n' → n' ≤ n → n < 2 ^ 64 → d.width ≤ d'.width →
      ∃ e e', seenHalfWidth c.value n d.toValueRange = .ok e ∧
        seenHalfWidth c'.value n' d'.toValueRange = .ok e' ∧
        e.isNaN = false ∧ e'.isNaN = false ∧ e ≤ e') ∧
    (∀ f₀ : Aggregator, Built f₀ →
      ∀ domain, f₀.strategy = .conservative domain ∨ f₀.strategy = .largeSample (some domain) →
      ∀ calls more : List Call, acceptedValues calls ≠ [] →
      (acceptedValues (calls ++ more)).length < 2 ^ 64 →
      ∃ e e', (f₀.afterCalls calls).epsilon = .ok e ∧
        ((f₀.afterCalls calls).afterCalls more).epsilon = .ok e' ∧ e' ≤ e) := by
  constructor
  · intro c c' n n' d d' hc hn hnn hword hwidth
    exact seenHalfWidth_mono hlog hmono hc hn hnn hword hwidth
  · intro f₀ hbuilt domain hstrategy calls more hys hword
    have hdata : f₀.strategy.dependsOnData = true := by
      rcases hstrategy with h | h <;> rw [h] <;> rfl
    have hdomain : f₀.strategy.domain? = some domain := by
      rcases hstrategy with h | h <;> rw [h] <;> rfl
    rw [← afterCalls_append]
    exact hbuilt.epsilon_antitone hlog hdata hdomain calls more hys hword

end Runs

-- The range cannot be left out for mere positivity. If the logarithm is the least positive number,
-- the factor is rounded to zero, and its product with a width that overflowed is NaN.
example : (@ConfidenceLevel.hoeffding ⟨fun _ => Float.ofBits 1⟩ half 1 widestDomain.width).isNaN =
    true := by
  decide +kernel

/-- The values from 0 to 1. -/
def unitDomain : ValueDomain :=
  ⟨⟨0.0, 1.0⟩, by decide, by decide, by decide⟩

/-- The greatest number below 1, as a confidence. -/
def almostCertain : ConfidenceLevel :=
  ⟨Float.ofBits 0x3fefffffffffffff, by decide, by decide⟩

/-- Between the ends of all three arguments: the greatest count against one that is rounded, and a
width of 1 against one that overflows. In the run a NaN and a value from outside come in. -/
theorem halfWidth_monotone_ends :
    (∃ e e', @seenHalfWidth logAtEnds half.value (2 ^ 64 - 1) unitDomain.toValueRange = .ok e ∧
      @seenHalfWidth logAtEnds almostCertain.value (2 ^ 53 + 1) widestDomain.toValueRange = .ok e' ∧
      e ≤ e') ∧
    ∃ f₀ e e', @conservative logAtEnds half.value unitDomain.lower unitDomain.upper = .ok f₀ ∧
      (@afterCalls logAtEnds f₀ [(none, 0.5)]).epsilon = .ok e ∧
      (@afterCalls logAtEnds (@afterCalls logAtEnds f₀ [(none, 0.5)])
        [(none, Numeric.nan), (some (.single 7.0), 3.0)]).epsilon = .ok e' ∧ e' ≤ e := by
  obtain ⟨hformula, hruns⟩ :=
    @halfWidth_monotone logAtEnds logInRange_logAtEnds logMonotone_logAtEnds
  constructor
  · obtain ⟨e, e', he, he', -, -, hle⟩ := hformula half almostCertain (2 ^ 64 - 1) (2 ^ 53 + 1)
      unitDomain widestDomain (by decide) (by norm_num) (by norm_num) (by norm_num) (by decide)
    exact ⟨e, e', he, he', hle⟩
  · have hstart := @conservative_of_checked logAtEnds half unitDomain
    obtain ⟨e, e', he, he', hle⟩ := hruns _ (@Built.conservative logAtEnds _ _ _ _ hstart) unitDomain
      (Or.inl rfl) [(none, 0.5)] [(none, Numeric.nan), (some (.single 7.0), 3.0)] (by decide)
      (by decide)
    exact ⟨_, e, e', hstart, he, he', hle⟩

end Aggregator

end OnlineAggregation
