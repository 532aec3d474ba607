import OnlineAggregation.Proofs.Aggregator.History
import OnlineAggregation.Proofs.Bound.Overflow
import OnlineAggregation.Mean.Estimator

/-!
# When a half-width is a number

The half-width in store rests on a range and a count, or there is none. Main statement: if there is
one, it is never NaN and never negative, and it is a finite number exactly if neither the width of
the range nor the product with the factor overflows. A width of at most `2 ^ 1020` is safe; between
the least and the greatest finite number the width is infinite, and so is every half-width.
-/

namespace OnlineAggregation

open Binary64
open Numeric (NaturalLog)

/-! ## §1 What a half-width rests on -/

namespace Strategy

/-- The range and the count from which the half-width is computed after `seen` values. -/
def basis? (s : Strategy) (seen : ℕ) (observed : Option ValueRange) : Option (ValueRange × ℕ) :=
  match s, observed with
  | deterministic domain planned, _ => some (domain.toValueRange, planned)
  | _, none => none
  | conservative domain, some _ => some (domain.toValueRange, seen)
  | largeSample (some domain), some _ => some (domain.toValueRange, seen)
  | largeSample none, some range => if 0.0 < range.width then some (range, seen) else none

variable {s : Strategy} {seen : ℕ}

/-- A half-width that looks at the data rests on nothing before the first value. -/
theorem basis?_none (hdata : s.dependsOnData = true) : s.basis? seen none = none := by
  cases s with
  | deterministic domain planned => simp [dependsOnData] at hdata
  | _ => rfl

/-- The basis is that of a plan, or it is the count with a declared or an observed range. -/
theorem basis?_cases {observed : Option ValueRange} {r : ValueRange} {n : ℕ}
    (h : s.basis? seen observed = some (r, n)) :
    (∃ domain, s = deterministic domain n ∧ r = domain.toValueRange) ∨
      ∃ range, observed = some range ∧ n = seen ∧
        ((∃ domain : ValueDomain, r = domain.toValueRange) ∨ r = range) := by
  unfold basis? at h
  split at h
  · cases h
    exact Or.inl ⟨_, rfl, rfl⟩
  · cases h
  · cases h
    exact Or.inr ⟨_, rfl, rfl, Or.inl ⟨_, rfl⟩⟩
  · cases h
    exact Or.inr ⟨_, rfl, rfl, Or.inl ⟨_, rfl⟩⟩
  · split at h
    · cases h
      exact Or.inr ⟨_, rfl, rfl, Or.inr rfl⟩
    · cases h

/-- A declared domain is what the half-width rests on from the first value on. -/
theorem basis?_of_domain {domain : ValueDomain} (h : s.domain? = some domain) (range : ValueRange) :
    ∃ n, s.basis? seen (some range) = some (domain.toValueRange, n) := by
  cases s with
  | largeSample declared =>
    obtain rfl : declared = some domain := h
    exact ⟨seen, rfl⟩
  | conservative declared =>
    obtain rfl : declared = domain := Option.some.inj h
    exact ⟨seen, rfl⟩
  | deterministic declared planned =>
    obtain rfl : declared = domain := Option.some.inj h
    exact ⟨planned, rfl⟩

/-- Two strategies look at the data and have a declared domain. -/
theorem eq_of_domain (hdata : s.dependsOnData = true) {domain : ValueDomain}
    (h : s.domain? = some domain) : s = largeSample (some domain) ∨ s = conservative domain := by
  cases s with
  | largeSample declared => exact Or.inl (congrArg largeSample h)
  | conservative declared => exact Or.inr (congrArg conservative (Option.some.inj h))
  | deterministic declared planned => simp [dependsOnData] at hdata

/-- For them the count beside the domain is that of the values seen. -/
theorem basis?_of_seen {domain : ValueDomain} (hdata : s.dependsOnData = true)
    (h : s.domain? = some domain) (range : ValueRange) :
    s.basis? seen (some range) = some (domain.toValueRange, seen) := by
  rcases eq_of_domain hdata h with rfl | rfl
  · rfl
  · rfl

/-- And their answer is that of the count, from the first value on. -/
theorem halfWidth_of_domain [NaturalLog] (level : ConfidenceLevel) (hseen : seen ≠ 0)
    (hdata : s.dependsOnData = true) {domain : ValueDomain} (h : s.domain? = some domain)
    (range : ValueRange) :
    s.halfWidth level.value seen (some range) = .ok (level.hoeffding seen domain.width) := by
  rcases eq_of_domain hdata h with rfl | rfl
  · exact seenHalfWidth_of_ne_zero level hseen domain.toValueRange
  · exact seenHalfWidth_of_ne_zero level hseen domain.toValueRange

/-- What a strategy answers from the first value on is the formula over its basis. -/
theorem toOption_halfWidth [NaturalLog] (level : ConfidenceLevel) (hseen : seen ≠ 0)
    (hdata : s.dependsOnData = true) (range : ValueRange) :
    (s.halfWidth level.value seen (some range)).toOption =
      (s.basis? seen (some range)).map fun b => level.hoeffding b.2 b.1.width := by
  have hanswer := fun r => seenHalfWidth_of_ne_zero level hseen r
  cases s with
  | deterministic domain planned => simp [dependsOnData] at hdata
  | conservative domain =>
    rw [halfWidth, hanswer]
    rfl
  | largeSample domain =>
    cases domain with
    | some domain =>
      rw [halfWidth, hanswer]
      rfl
    | none =>
      -- Without a domain the width of what was seen decides.
      rw [halfWidth, basis?]
      split
      · rw [hanswer]
        rfl
      · rfl

end Strategy

namespace Aggregator

def basis? (f : Aggregator) : Option (ValueRange × ℕ) :=
  f.strategy.basis? f.observations f.observed

/-- A planned count, if there is one, has 64 bits. -/
def PlanFits (f : Aggregator) : Prop :=
  ∀ domain planned, f.strategy = .deterministic domain planned → planned < 2 ^ 64

variable [NaturalLog] {f : Aggregator} {ys : List Float}

theorem Remembers.observations_ne_zero (h : f.Remembers ys) (hys : ys ≠ []) :
    f.observations ≠ 0 := by
  rw [h.observations_eq]
  exact mt List.length_eq_zero_iff.mp hys

/-- The half-width in store is the formula over its basis. -/
theorem Remembers.epsilon_eq_basis (h : f.Remembers ys) :
    f.epsilon? = f.basis?.map fun b => f.confidence.hoeffding b.2 b.1.width := by
  cases hdata : f.strategy.dependsOnData with
  | false =>
    rw [h.planned hdata, planned?, basis?]
    cases hstrategy : f.strategy with
    | deterministic domain planned => rfl
    | _ => simp [hstrategy, Strategy.dependsOnData] at hdata
  | true =>
    by_cases hys : ys = []
    · rw [h.epsilon_of_nil hdata hys, basis?, h.observed_of_nil hys, Strategy.basis?_none hdata]
      rfl
    · obtain ⟨r, hobserved, -⟩ := h.observed_of_ne_nil hys
      rw [h.epsilon_of_ne_nil hdata hys, basis?, hobserved]
      exact Strategy.toOption_halfWidth f.confidence (h.observations_ne_zero hys) hdata r

/-- Over a declared domain the half-width is that of the count, from the first value on. -/
theorem Remembers.epsilon_of_domain (h : f.Remembers ys) (hdata : f.strategy.dependsOnData = true)
    {domain : ValueDomain} (hdomain : f.strategy.domain? = some domain) (hys : ys ≠ []) :
    f.epsilon = .ok (f.confidence.hoeffding ys.length domain.width) := by
  obtain ⟨r, hobserved, -⟩ := h.observed_of_ne_nil hys
  rw [epsilon, h.epsilon_eq_basis, basis?, hobserved, Strategy.basis?_of_seen hdata hdomain r,
    h.observations_eq]
  rfl

/-- So after any calls it is that of the values accepted in them. -/
theorem Built.epsilon_of_domain {f₀ : Aggregator} (hbuilt : Built f₀)
    (hdata : f₀.strategy.dependsOnData = true) {domain : ValueDomain}
    (hdomain : f₀.strategy.domain? = some domain) {calls : List Call}
    (hys : acceptedValues calls ≠ []) : (f₀.afterCalls calls).epsilon =
      .ok (f₀.confidence.hoeffding (acceptedValues calls).length domain.width) := by
  obtain ⟨hconfidence, hstrategy⟩ := f₀.afterCalls_settings calls
  rw [(hbuilt.remembers calls).epsilon_of_domain (hstrategy ▸ hdata) (hstrategy ▸ hdomain) hys,
    hconfidence]

/-- Whatever a half-width rests on was checked at the start or seen since. -/
theorem Remembers.isSolid_basis (h : f.Remembers ys) (hword : ys.length < 2 ^ 64)
    (hpositive : ∀ domain planned, f.strategy = .deterministic domain planned → planned ≠ 0)
    (hfits : f.PlanFits) {r : ValueRange} {n : ℕ} (hbasis : f.basis? = some (r, n)) :
    IsSolid r n := by
  rcases Strategy.basis?_cases hbasis with ⟨domain, hstrategy, rfl⟩ | ⟨range, hobserved, rfl, hr⟩
  · exact domain.isSolid (Nat.one_le_iff_ne_zero.mpr (hpositive domain n hstrategy))
      (hfits domain n hstrategy)
  · have hys : ys ≠ [] := by
      intro hys
      rw [h.observed_of_nil hys] at hobserved
      cases hobserved
    have hcount : 1 ≤ f.observations := Nat.one_le_iff_ne_zero.mpr (h.observations_ne_zero hys)
    have hcount' : f.observations < 2 ^ 64 := by rwa [h.observations_eq]
    rcases hr with ⟨domain, rfl⟩ | rfl
    · exact domain.isSolid hcount hcount'
    · obtain ⟨range', hobserved', hhull⟩ := h.observed_of_ne_nil hys
      rw [hobserved] at hobserved'
      cases hobserved'
      exact ⟨hhull.lower_finite, hhull.upper_finite, hhull.ordered, hcount, hcount'⟩

/-- A half-width that looks at the data is not negative, and so not NaN. -/
theorem Remembers.epsilon_nonneg (h : f.Remembers ys) (hlog : LogInRange)
    (hdata : f.strategy.dependsOnData = true) (hword : ys.length < 2 ^ 64) {e : Float}
    (he : f.epsilon = .ok e) : 0.0 ≤ e := by
  have hplan : ∀ domain planned, f.strategy ≠ .deterministic domain planned := by
    intro domain planned hstrategy
    simp [hstrategy, Strategy.dependsOnData] at hdata
  rw [epsilon, h.epsilon_eq_basis] at he
  cases hbasis : f.basis? with
  | none => simp [hbasis] at he
  | some b =>
    rw [hbasis] at he
    cases he
    have hsolid := h.isSolid_basis hword (fun domain planned h => absurd h (hplan domain planned))
      (fun domain planned h => absurd h (hplan domain planned)) hbasis
    apply ConfidenceLevel.hoeffding_nonneg hlog f.confidence hsolid.count_pos hsolid.count_word
    exact hsolid.width_nonneg

end Aggregator

/-! ## §2 After any calls -/

namespace Aggregator

section Reachable

variable [NaturalLog]

/-- **A half-width is a number unless it overflows**: after any calls there is none, or it is not
NaN and not negative. In the second case it rests on a range with finite ends and on a count, and
it is finite if and only if neither the width nor the product overflows, so at the latest for a
width of `2 ^ 1020`. An estimate that shows a missing half-width as infinite is therefore infinite
exactly if there is none or it overflows. -/
theorem epsilon_isFinite_iff (hlog : LogInRange) {f₀ : Aggregator} (hbuilt : Built f₀)
    (hfits : f₀.PlanFits) (calls : List Call) (hword : (acceptedValues calls).length < 2 ^ 64) :
    let f := f₀.afterCalls calls
    (f.epsilon = .error .halfWidthUnavailable ∧ f.basis? = none ∨
      ∃ e r n, f.epsilon = .ok e ∧ f.basis? = some (r, n) ∧ IsSolid r n ∧
        e = f.confidence.hoeffding n r.width ∧ e.isNaN = false ∧ 0.0 ≤ e ∧
        (e.isFinite = true ↔ ¬ f.confidence.Overflows n r) ∧
        (r.width ≤ safeWidth → e.isFinite = true)) ∧
    (∀ a estimate, (⟨f, some a⟩ : Estimator).estimateOrUnbounded = some estimate →
      (estimate.epsilon.isInf = true ↔ f.epsilon = .error .halfWidthUnavailable ∨
        ∃ r n, f.basis? = some (r, n) ∧ f.confidence.Overflows n r)) := by
  intro f
  have hremembers : f.Remembers (acceptedValues calls) := hbuilt.remembers calls
  have hepsilon := hremembers.epsilon_eq_basis
  have hpositive : ∀ domain planned, f.strategy = .deterministic domain planned → planned ≠ 0 :=
    fun _ _ hstrategy => hbuilt.planned_ne_zero hstrategy
  have hfits' : f.PlanFits := by
    intro domain planned hstrategy
    exact hfits domain planned ((f₀.afterCalls_settings calls).2 ▸ hstrategy)
  cases hbasis : f.basis? with
  | none =>
    rw [hbasis] at hepsilon
    have hnone : f.epsilon = .error .halfWidthUnavailable := by
      rw [Aggregator.epsilon, hepsilon]
      rfl
    refine ⟨Or.inl ⟨hnone, rfl⟩, ?_⟩
    intro a estimate hestimate
    rw [Estimator.estimateOrUnbounded, hepsilon] at hestimate
    cases hestimate
    exact iff_of_true Numeric.isInf_infinity (Or.inl hnone)
  | some b =>
    obtain ⟨r, n⟩ := b
    rw [hbasis] at hepsilon
    have hsolid := hremembers.isSolid_basis hword hpositive hfits' hbasis
    have hok : f.epsilon = .ok (f.confidence.hoeffding n r.width) := by
      rw [Aggregator.epsilon, hepsilon]
      rfl
    have hnonneg := ConfidenceLevel.hoeffding_nonneg hlog f.confidence hsolid.count_pos
      hsolid.count_word hsolid.width_nonneg
    have hnan := (isNaN_eq_false_of_le hnonneg).2
    have hfinite := hsolid.isFinite_hoeffding_iff hlog f.confidence
    refine ⟨Or.inr ⟨_, r, n, hok, rfl, hsolid, rfl, hnan, hnonneg, hfinite,
      hsolid.isFinite_of_width_le hlog f.confidence⟩, ?_⟩
    intro a estimate hestimate
    rw [Estimator.estimateOrUnbounded, hepsilon] at hestimate
    cases hestimate
    -- What is not NaN is infinite exactly if it is not finite.
    have hinfinite : (f.confidence.hoeffding n r.width).isInf = true ↔
        f.confidence.Overflows n r := by
      rw [← not_not (a := f.confidence.Overflows n r), ← hfinite, Bool.not_eq_true,
        isFinite_eq_false_iff, hnan]
      simp
    refine hinfinite.trans ⟨fun h => Or.inr ⟨r, n, rfl, h⟩, ?_⟩
    rintro (hnone | ⟨r', n', hsome, hoverflows⟩)
    · rw [hok] at hnone
      cases hnone
    · cases hsome
      exact hoverflows

end Reachable

/-- Two different values, with a NaN refused in between, give a finite half-width. -/
theorem epsilon_isFinite_iff_two :
    ∃ e, (@afterCalls logAtFour ⟨half, .largeSample none, 0, none, none⟩
      [(none, 2.0), (none, Numeric.nan), (none, 3.0)]).epsilon = .ok e ∧ e.isFinite = true := by
  have hfits : PlanFits ⟨half, .largeSample none, 0, none, none⟩ := nofun
  obtain ⟨⟨-, hnone⟩ | ⟨e, r, n, hok, hbasis, -, -, -, -, -, hsafe⟩, -⟩ :=
    @epsilon_isFinite_iff logAtFour logInRange_logAtFour _
      (@Built.largeSample logAtFour _ _ (@largeSample_half logAtFour)) hfits
      [(none, 2.0), (none, Numeric.nan), (none, 3.0)] (by decide)
  · exact absurd hnone (by decide)
  · have hrange : some (ValueRange.mk 2.0 3.0, 2) = some (r, n) :=
      Eq.trans (by decide) hbasis
    cases hrange
    exact ⟨e, hok, hsafe (by decide)⟩

/-- From the least to the greatest finite number. -/
def widestDomain : ValueDomain :=
  ⟨⟨Float.ofBits 0xffefffffffffffff, Float.ofBits 0x7fefffffffffffff⟩, by decide,
    by decide, by decide⟩

/-- Over the widest domain there is a half-width, planned for a hundred values, but it is infinite;
and so is that of an estimate, as if there were none. -/
theorem not_isFinite_epsilon_widestDomain :
    ∃ log : NaturalLog, @LogInRange log ∧ ∃ f e a estimate,
      @deterministicAt log 0.5 widestDomain.lower widestDomain.upper 100 = .ok f ∧
      f.epsilon = .ok e ∧ e.isFinite = false ∧
      (⟨f, some a⟩ : Estimator).estimateOrUnbounded = some estimate ∧
      estimate.epsilon.isInf = true := by
  refine ⟨logAtFour, logInRange_logAtFour,
    ⟨half, .deterministic widestDomain 100, 0, none, some Numeric.infinity⟩, Numeric.infinity,
    .single 0.0, ⟨1, 0.0, Numeric.infinity, 0.5⟩, ?_, rfl, ?_, rfl, Numeric.isInf_infinity⟩
  · decide +kernel
  · decide

end Aggregator

end OnlineAggregation
