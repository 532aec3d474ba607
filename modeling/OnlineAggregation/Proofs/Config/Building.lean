import OnlineAggregation.Config.Choice

/-!
# What choices are built

Nothing of a choice is checked before an aggregator is built from it. Main statements: an aggregator
is built exactly if the confidence is strictly between 0 and 1, the ends of the domain are finite
and in order or both left out, and the planned count is not zero; and then it has the confidence,
the kind of bound and the ends of the choice.
-/

namespace OnlineAggregation

open Numeric (NaturalLog)

/-! ## §1 Checks -/

theorem bind_eq_ok_iff {ε α β : Type} {x : Except ε α} {g : α → Except ε β} {b : β} :
    (x >>= g) = .ok b ↔ ∃ a, x = .ok a ∧ g a = .ok b := by
  cases x with
  | error e => simp [bind, Except.bind]
  | ok a => simp [bind, Except.bind]

theorem bind_eq_error_iff {ε α β : Type} {x : Except ε α} {g : α → Except ε β} {e : ε} :
    (x >>= g) = .error e ↔ x = .error e ∨ ∃ a, x = .ok a ∧ g a = .error e := by
  cases x with
  | error e => simp [bind, Except.bind]
  | ok a => simp [bind, Except.bind]

private theorem exists_bind_iff {ε α β : Type} {x : Except ε α} {g : α → Except ε β} :
    (∃ b, (x >>= g) = .ok b) ↔ ∃ a, x = .ok a ∧ ∃ b, g a = .ok b := by
  simp only [bind_eq_ok_iff]
  exact ⟨fun ⟨b, a, ha, hb⟩ => ⟨a, ha, b, hb⟩, fun ⟨a, ha, b, hb⟩ => ⟨b, a, ha, hb⟩⟩

theorem ConfidenceLevel.exists_check_iff {c : Float} :
    (∃ level, check c = .ok level) ↔ 0.0 < c ∧ c < 1.0 := by
  constructor
  · rintro ⟨level, hlevel⟩
    rw [← value_of_check hlevel]
    exact ⟨level.positive, level.below_one⟩
  · exact fun h => ⟨_, dif_pos h⟩

/-- The ends of a domain: finite, and in order. -/
structure EndsOfDomain (lower upper : Float) : Prop where
  lower_finite : lower.isFinite = true
  upper_finite : upper.isFinite = true
  ordered : ¬ upper < lower

theorem ValueDomain.endsOfDomain (d : ValueDomain) : EndsOfDomain d.lower d.upper :=
  ⟨d.lower_finite, d.upper_finite, d.ordered⟩

/-- The domain between two numbers. -/
def EndsOfDomain.domain {lower upper : Float} (h : EndsOfDomain lower upper) : ValueDomain :=
  ⟨⟨lower, upper⟩, h.lower_finite, h.upper_finite, h.ordered⟩

section Start

variable [NaturalLog] {c : Float} {s : Strategy} {f : Aggregator}

/-- A half-width that is known in advance is one of at least one value. -/
def Strategy.IsPlannable (s : Strategy) : Prop :=
  ∀ domain, s ≠ .deterministic domain 0

theorem Strategy.exists_halfWidth_planned (hs : s.IsPlannable) (hdata : s.dependsOnData = false)
    (level : ConfidenceLevel) : ∃ e, s.halfWidth level.value 0 none = .ok e := by
  cases s with
  | deterministic domain planned =>
    have hplanned : planned ≠ 0 := by
      rintro rfl
      exact hs domain rfl
    rw [halfWidth_deterministic, plannedHalfWidth, if_neg hplanned,
      seenHalfWidth_of_ne_zero level hplanned]
    exact ⟨_, rfl⟩
  | _ => cases hdata

/-- Once a strategy is there, only the confidence can be refused. -/
theorem Aggregator.exists_start_iff (hs : s.IsPlannable) :
    (∃ f, start c s = .ok f) ↔ 0.0 < c ∧ c < 1.0 := by
  rw [← ConfidenceLevel.exists_check_iff, start, exists_bind_iff]
  refine exists_congr fun level => and_iff_left ?_
  cases hdata : s.dependsOnData with
  | true => exact ⟨_, rfl⟩
  | false =>
    obtain ⟨e, he⟩ := s.exists_halfWidth_planned hs hdata level
    rw [he]
    exact ⟨_, rfl⟩

/-- And a refusal names it. -/
theorem Aggregator.start_eq_error_iff (hs : s.IsPlannable) {e : EstimationError} :
    start c s = .error e ↔ e = .confidenceOutOfRange c ∧ ¬ (0.0 < c ∧ c < 1.0) := by
  rw [← ConfidenceLevel.check_eq_error_iff]
  constructor
  · intro h
    cases hlevel : ConfidenceLevel.check c with
    | error cause => simpa [start, hlevel, bind, Except.bind] using h
    | ok level =>
      have hvalid := ConfidenceLevel.exists_check_iff.mp ⟨level, hlevel⟩
      obtain ⟨f, hf⟩ := (exists_start_iff hs).mpr hvalid
      rw [hf] at h
      cases h
  · intro h
    exact bind_eq_error_iff.mpr (Or.inl h)

theorem Aggregator.settings_of_start (h : start c s = .ok f) :
    f.confidence.value = c ∧ f.strategy = s := by
  obtain ⟨level, hlevel, h⟩ := bind_eq_ok_iff.mp h
  have hvalue := ConfidenceLevel.value_of_check hlevel
  cases hdata : s.dependsOnData with
  | true =>
    rw [hdata] at h
    cases h
    exact ⟨hvalue, rfl⟩
  | false =>
    rw [hdata] at h
    obtain ⟨epsilon?, -, h⟩ := bind_eq_ok_iff.mp h
    cases h
    exact ⟨hvalue, rfl⟩

end Start

/-! ## §2 Choices -/

namespace Config.Choice

/-- The confidence asked for. -/
def confidence : Choice → Float
  | largeSample p => p.confidence
  | conservative p => p.confidence
  | deterministic p => p.confidence

/-- The lower end of the domain, if there is one. -/
def lower? : Choice → Option Float
  | largeSample p => p.lower
  | conservative p => some p.lower
  | deterministic p => some p.lower

/-- The upper end of the domain, if there is one. -/
def upper? : Choice → Option Float
  | largeSample p => p.upper
  | conservative p => some p.upper
  | deterministic p => some p.upper

/-- The planned count, if one is asked for. -/
def planned? : Choice → Option Nat
  | deterministic p => some p.plannedSamples
  | _ => none

/-- Both ends are those of a domain, or both are left out. -/
def EndsFit : Option Float → Option Float → Prop
  | some lower, some upper => EndsOfDomain lower upper
  | none, none => True
  | _, _ => False

/-- The parameters fit together. -/
structure IsValid (c : Choice) : Prop where
  positive : 0.0 < c.confidence
  below_one : c.confidence < 1.0
  ends : EndsFit c.lower? c.upper?
  planned : c.planned? ≠ some 0

/-- The strategy asked for, if the parameters make one. -/
def strategy : Choice → Except EstimationError Strategy
  | largeSample { lower := some lower, upper := some upper, .. } => do
    let domain ← ValueDomain.check lower upper
    pure (.largeSample (some domain))
  | largeSample { lower := none, upper := none, .. } => .ok (.largeSample none)
  | largeSample { lower, upper, .. } =>
    .error (.invalidBounds (lower.getD Numeric.nan) (upper.getD Numeric.nan))
  | conservative p => do
    let domain ← ValueDomain.check p.lower p.upper
    pure (.conservative domain)
  | deterministic p => do
    let domain ← ValueDomain.check p.lower p.upper
    if p.plannedSamples = 0 then
      .error .zeroPlannedSamples
    else
      pure (.deterministic domain p.plannedSamples)

/-- The strategies that choices make, each with the choice that makes it. -/
inductive Makes : Choice → Strategy → Prop where
  | observed (confidence : Float) : Makes (.largeSample ⟨confidence, none, none⟩) (.largeSample none)
  | declared (confidence : Float) (domain : ValueDomain) :
    Makes (.largeSample ⟨confidence, some domain.lower, some domain.upper⟩)
      (.largeSample (some domain))
  | conservative (confidence : Float) (domain : ValueDomain) :
    Makes (.conservative ⟨confidence, domain.lower, domain.upper⟩) (.conservative domain)
  | deterministic (confidence : Float) (domain : ValueDomain) {planned : Nat} (h : planned ≠ 0) :
    Makes (.deterministic ⟨confidence, domain.lower, domain.upper, planned⟩)
      (.deterministic domain planned)

theorem strategy_eq_ok_iff {c : Choice} {s : Strategy} : c.strategy = .ok s ↔ c.Makes s := by
  constructor
  · intro h
    -- Only the large-sample choice may leave out its ends, and then both.
    rcases c with ⟨c, _ | lower, _ | upper⟩ | p | p
    · cases h
      exact .observed c
    · cases h
    · cases h
    · obtain ⟨domain, hdomain, hs⟩ := bind_eq_ok_iff.mp h
      obtain ⟨rfl, rfl⟩ := ValueDomain.ends_of_check hdomain
      cases hs
      exact .declared c domain
    · obtain ⟨c, lower, upper⟩ := p
      obtain ⟨domain, hdomain, hs⟩ := bind_eq_ok_iff.mp h
      obtain ⟨rfl, rfl⟩ := ValueDomain.ends_of_check hdomain
      cases hs
      exact .conservative c domain
    · obtain ⟨c, lower, upper, planned⟩ := p
      obtain ⟨domain, hdomain, hs⟩ := bind_eq_ok_iff.mp h
      obtain ⟨rfl, rfl⟩ := ValueDomain.ends_of_check hdomain
      split at hs
      · cases hs
      · rename_i hplanned
        cases hs
        exact .deterministic c domain hplanned
  · intro h
    cases h with
    | observed c => rfl
    | declared c domain => simp [strategy, bind, Except.bind, pure, Except.pure]
    | conservative c domain => simp [strategy, bind, Except.bind, pure, Except.pure]
    | deterministic c domain hplanned =>
      simp [strategy, hplanned, bind, Except.bind, pure, Except.pure]

/-- A strategy is made exactly if the ends fit and the planned count is not zero. -/
theorem exists_makes_iff (c : Choice) :
    (∃ s, c.Makes s) ↔ EndsFit c.lower? c.upper? ∧ c.planned? ≠ some 0 := by
  constructor
  · rintro ⟨s, h⟩
    cases h with
    | observed c => exact ⟨trivial, nofun⟩
    | declared c domain => exact ⟨domain.endsOfDomain, nofun⟩
    | conservative c domain => exact ⟨domain.endsOfDomain, nofun⟩
    | deterministic c domain hplanned =>
      refine ⟨domain.endsOfDomain, ?_⟩
      simpa [planned?] using hplanned
  · rintro ⟨h, hplanned⟩
    rcases c with ⟨c, _ | lower, _ | upper⟩ | ⟨c, lower, upper⟩ | ⟨c, lower, upper, planned⟩
    · exact ⟨_, .observed c⟩
    · cases h
    · cases h
    · exact ⟨_, .declared c (EndsOfDomain.domain h)⟩
    · exact ⟨_, .conservative c (EndsOfDomain.domain h)⟩
    · refine ⟨_, .deterministic c (EndsOfDomain.domain h) ?_⟩
      rintro rfl
      exact hplanned rfl

theorem Makes.isPlannable {c : Choice} {s : Strategy} (h : c.Makes s) : s.IsPlannable := by
  rintro domain rfl
  cases h with
  | deterministic c domain hplanned => exact hplanned rfl

/-- A strategy is named for the kind of its choice, and has its ends. -/
theorem Makes.shape {c : Choice} {s : Strategy} (h : c.Makes s) :
    s.name = c.kind.name ∧ s.domain?.map (·.lower) = c.lower? ∧
      s.domain?.map (·.upper) = c.upper? := by
  cases h <;> exact ⟨rfl, rfl, rfl⟩

variable [NaturalLog]

/-- The parameters are checked in this order: the ends, the planned count, the confidence. -/
theorem build_eq (c : Choice) : c.build = c.strategy >>= Aggregator.start c.confidence := by
  rcases c with ⟨c, _ | lower, _ | upper⟩ | p | p
  · rfl
  · rfl
  · rfl
  · rw [build, strategy, Aggregator.largeSampleWithin]
    cases ValueDomain.check lower upper <;> rfl
  · rw [build, strategy, Aggregator.conservative]
    cases ValueDomain.check p.lower p.upper <;> rfl
  · rw [build, strategy, Aggregator.deterministicAt]
    cases ValueDomain.check p.lower p.upper with
    | error cause => rfl
    | ok domain =>
      dsimp only [bind, Except.bind]
      split <;> rfl

/-- **What is built**: exactly the choices whose parameters fit together. -/
theorem exists_build_iff (c : Choice) : (∃ f, c.build = .ok f) ↔ c.IsValid := by
  have hstart : ∀ s, c.Makes s →
      ((∃ f, Aggregator.start c.confidence s = .ok f) ↔ 0.0 < c.confidence ∧ c.confidence < 1.0) :=
    fun s hs => Aggregator.exists_start_iff hs.isPlannable
  simp only [build_eq, exists_bind_iff, strategy_eq_ok_iff]
  constructor
  · rintro ⟨s, hs, hf⟩
    obtain ⟨hpositive, hbelow⟩ := (hstart s hs).mp hf
    obtain ⟨hends, hplanned⟩ := c.exists_makes_iff.mp ⟨s, hs⟩
    exact ⟨hpositive, hbelow, hends, hplanned⟩
  · intro h
    obtain ⟨s, hs⟩ := c.exists_makes_iff.mpr ⟨h.ends, h.planned⟩
    exact ⟨s, hs, (hstart s hs).mpr ⟨h.positive, h.below_one⟩⟩

/-- **What the aggregator of a choice has**: its confidence, its kind of bound and its ends. -/
theorem settings_of_build {c : Choice} {f : Aggregator} (h : c.build = .ok f) :
    f.confidence.value = c.confidence ∧ f.strategy.name = c.kind.name ∧
      f.strategy.domain?.map (·.lower) = c.lower? ∧
      f.strategy.domain?.map (·.upper) = c.upper? := by
  rw [build_eq] at h
  obtain ⟨s, hs, h⟩ := bind_eq_ok_iff.mp h
  obtain ⟨hvalue, rfl⟩ := Aggregator.settings_of_start h
  exact ⟨hvalue, (strategy_eq_ok_iff.mp hs).shape⟩

end Config.Choice

end OnlineAggregation
