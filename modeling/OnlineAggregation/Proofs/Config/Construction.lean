import OnlineAggregation.Proofs.Aggregator.History

/-!
# Construction

An aggregator is asked for by a constructor or by a choice. Main statement: every way of asking is
the choice of its parameters, accepts exactly the valid ones, names the first fault of any others,
and gives an aggregator that has seen nothing and has the parameters it was asked for. Only the
deterministic ones have a half-width by then.
-/

namespace OnlineAggregation

open Numeric (NaturalLog)
open Aggregator (Built IsFresh half)

/-! ## §1 Ways of asking -/

/-- A call of one of the constructors, or a choice to build from. -/
inductive Request where
  | largeSample (confidence : Float)
  | largeSampleWithin (confidence lower upper : Float)
  | conservative (confidence lower upper : Float)
  | deterministic (lower upper : Float) (planned : Nat)
  | deterministicAt (confidence lower upper : Float) (planned : Nat)
  | choice (choice : Config.Choice)

namespace Request

/-- What comes of a request. -/
def answer [NaturalLog] : Request → Except EstimationError Aggregator
  | largeSample confidence => Aggregator.largeSample confidence
  | largeSampleWithin confidence lower upper =>
    Aggregator.largeSampleWithin confidence lower upper
  | conservative confidence lower upper => Aggregator.conservative confidence lower upper
  | deterministic lower upper planned => Aggregator.deterministic lower upper planned
  | deterministicAt confidence lower upper planned =>
    Aggregator.deterministicAt confidence lower upper planned
  | choice c => c.build

/-- The choice with the parameters of a request. -/
def parameters : Request → Config.Choice
  | largeSample confidence => .largeSample { confidence, lower := none, upper := none }
  | largeSampleWithin confidence lower upper => .largeSample { confidence, lower, upper }
  | conservative confidence lower upper => .conservative { confidence, lower, upper }
  | deterministic lower upper planned =>
    .deterministic
      { confidence := Aggregator.defaultConfidence, lower, upper, plannedSamples := planned }
  | deterministicAt confidence lower upper planned =>
    .deterministic { confidence, lower, upper, plannedSamples := planned }
  | choice c => c

/-- A constructor and the choice of its parameters build the same. -/
theorem answer_eq_build [NaturalLog] (r : Request) : r.answer = r.parameters.build := by
  cases r <;> rfl

end Request

/-! ## §2 Faults -/

/-- Both ends are finite and the lower one is at most the upper one, or both are left out. -/
def OrderedEnds : Option Float → Option Float → Prop
  | some lower, some upper => lower.isFinite = true ∧ upper.isFinite = true ∧ lower ≤ upper
  | none, none => True
  | _, _ => False

instance : DecidableRel OrderedEnds
  | some lower, some upper =>
    inferInstanceAs
      (Decidable (lower.isFinite = true ∧ upper.isFinite = true ∧ lower ≤ upper))
  | none, none => inferInstanceAs (Decidable True)
  | some _, none => inferInstanceAs (Decidable False)
  | none, some _ => inferInstanceAs (Decidable False)

/-- Finite numbers that are not in the reverse order are in order. -/
theorem endsOfDomain_iff {lower upper : Float} :
    EndsOfDomain lower upper ↔
      lower.isFinite = true ∧ upper.isFinite = true ∧ lower ≤ upper := by
  have horder (hlower : lower.isFinite = true) (hupper : upper.isFinite = true) :
      ¬ upper < lower ↔ lower ≤ upper := by
    obtain ⟨l, hl⟩ := Binary64.isFinite_iff_exists_reads.mp hlower
    obtain ⟨u, hu⟩ := Binary64.isFinite_iff_exists_reads.mp hupper
    rw [hu.lt_iff hl, hl.le_iff hu, not_lt]
  constructor
  · rintro ⟨hlower, hupper, hnot⟩
    exact ⟨hlower, hupper, (horder hlower hupper).mp hnot⟩
  · rintro ⟨hlower, hupper, hle⟩
    exact ⟨hlower, hupper, (horder hlower hupper).mpr hle⟩

namespace Config.Choice

theorem endsFit_iff_orderedEnds {lower upper : Option Float} :
    EndsFit lower upper ↔ OrderedEnds lower upper := by
  cases lower <;> cases upper
  · exact Iff.rfl
  · exact Iff.rfl
  · exact Iff.rfl
  · exact endsOfDomain_iff

/-- The first thing that is wrong with the parameters: the ends, where NaN stands for one that is
left out, then the planned count, then the confidence. -/
def firstFault (c : Choice) : Option EstimationError :=
  if ¬ OrderedEnds c.lower? c.upper? then
    some (.invalidBounds (c.lower?.getD Numeric.nan) (c.upper?.getD Numeric.nan))
  else if c.planned? = some 0 then
    some .zeroPlannedSamples
  else if ¬ (0.0 < c.confidence ∧ c.confidence < 1.0) then
    some (.confidenceOutOfRange c.confidence)
  else
    none

variable {c : Choice} {s : Strategy} {e : EstimationError}

/-- Every fault is one of the parameters. -/
theorem category_of_firstFault (h : c.firstFault = some e) : e.category = .configuration := by
  unfold firstFault at h
  split_ifs at h
  all_goals
    cases h
    rfl

/-- If a strategy is made, only the confidence can be wrong. -/
theorem Makes.firstFault_eq (h : c.Makes s) :
    c.firstFault =
      if ¬ (0.0 < c.confidence ∧ c.confidence < 1.0) then some (.confidenceOutOfRange c.confidence)
      else none := by
  obtain ⟨hends, hplanned⟩ := c.exists_makes_iff.mp ⟨s, h⟩
  rw [firstFault, if_neg (not_not.mpr (endsFit_iff_orderedEnds.mp hends)), if_neg hplanned]

/-- If the ends are refused, that is the first fault. -/
private theorem firstFault_of_check {lower upper : Float} (hlower : c.lower? = some lower)
    (hupper : c.upper? = some upper) (h : ValueDomain.check lower upper = .error e) :
    c.firstFault = some e := by
  obtain ⟨rfl, hnot⟩ := ValueDomain.check_eq_error_iff.mp h
  rw [firstFault, hlower, hupper]
  refine if_pos fun hordered => hnot ?_
  have hends : EndsOfDomain lower upper := endsOfDomain_iff.mpr hordered
  exact ⟨hends.lower_finite, hends.upper_finite, hends.ordered⟩

/-- If none is made, the ends or the planned count are wrong, and the refusal says which first. -/
theorem firstFault_of_strategy (h : c.strategy = .error e) : c.firstFault = some e := by
  rcases c with ⟨c, _ | lower, _ | upper⟩ | ⟨c, lower, upper⟩ | ⟨c, lower, upper, planned⟩
  · cases h
  · cases h
    rfl
  · cases h
    rfl
  · obtain hends | ⟨domain, -, h⟩ := bind_eq_error_iff.mp h
    · exact firstFault_of_check rfl rfl hends
    · cases h
  · obtain hends | ⟨domain, -, h⟩ := bind_eq_error_iff.mp h
    · exact firstFault_of_check rfl rfl hends
    · cases h
  · obtain hends | ⟨domain, hdomain, h⟩ := bind_eq_error_iff.mp h
    · exact firstFault_of_check rfl rfl hends
    · -- The count is looked at only when there is a domain.
      obtain ⟨rfl, rfl⟩ := ValueDomain.ends_of_check hdomain
      have hordered : OrderedEnds (some domain.lower) (some domain.upper) :=
        endsOfDomain_iff.mp domain.endsOfDomain
      split at h
      · rename_i hplanned
        cases h
        subst hplanned
        exact (if_neg (not_not.mpr hordered)).trans (if_pos rfl)
      · cases h

variable [NaturalLog]

/-- A refusal names the first fault. -/
theorem build_eq_error_iff : c.build = .error e ↔ c.firstFault = some e := by
  rw [build_eq]
  cases hstrategy : c.strategy with
  | error cause =>
    -- Without a strategy the confidence is not looked at.
    rw [firstFault_of_strategy hstrategy]
    simp [bind, Except.bind]
  | ok s =>
    have hmakes : c.Makes s := strategy_eq_ok_iff.mp hstrategy
    -- With one, only the confidence is left to be wrong.
    change Aggregator.start c.confidence s = .error e ↔ _
    rw [Aggregator.start_eq_error_iff hmakes.isPlannable, hmakes.firstFault_eq]
    split_ifs with h
    · simp [h]
    · simp [h, eq_comm]

end Config.Choice

/-! ## §3 What is built -/

/-- The planned count of a strategy, if there is one. -/
def Strategy.planned? : Strategy → Option Nat
  | deterministic _ planned => some planned
  | _ => none

theorem Config.Choice.Makes.planned_eq {c : Config.Choice} {s : Strategy} (h : c.Makes s) :
    s.planned? = c.planned? := by
  cases h <;> rfl

/-- An aggregator that has seen nothing, with the parameters of a choice. -/
structure Aggregator.IsNewFrom (f : Aggregator) (c : Config.Choice) : Prop where
  observations_eq : f.observations = 0
  observed_eq : f.observed = none
  confidence_eq : f.confidence.value = c.confidence
  name_eq : f.strategy.name = c.kind.name
  lower_eq : f.strategy.domain?.map (·.lower) = c.lower?
  upper_eq : f.strategy.domain?.map (·.upper) = c.upper?
  planned_eq : f.strategy.planned? = c.planned?

section Construction

variable [NaturalLog]

/-- A new aggregator has a half-width only if that was planned. -/
theorem Aggregator.IsFresh.exists_epsilon_iff {f : Aggregator} (h : f.IsFresh) :
    (∃ e, f.epsilon = .ok e) ↔ ∃ domain planned, f.strategy = .deterministic domain planned := by
  rw [epsilon, h.epsilon_eq, planned?]
  cases f.strategy <;> simp

theorem Config.Choice.isNewFrom_of_build {c : Config.Choice} {f : Aggregator}
    (h : c.build = .ok f) : f.IsNewFrom c := by
  have hfresh : f.IsFresh := (Built.choice h).isFresh
  obtain ⟨hconfidence, hname, hlower, hupper⟩ := c.settings_of_build h
  refine ⟨hfresh.observations_eq, hfresh.observed_eq, hconfidence, hname, hlower, hupper, ?_⟩
  rw [build_eq] at h
  obtain ⟨s, hs, hstart⟩ := bind_eq_ok_iff.mp h
  rw [(Aggregator.settings_of_start hstart).2]
  exact (strategy_eq_ok_iff.mp hs).planned_eq

/-- **Construction accepts exactly the valid parameters**, in whichever way an aggregator is asked
for. It is built exactly if the confidence is strictly between 0 and 1, the ends are finite and in
order or both left out, and a planned count is at least 1. If not, the refusal names the first
fault, which is always one of the configuration. What is built is new, has the parameters asked for,
is the same as that of the choice with these parameters, and has a half-width exactly if it is
deterministic. -/
theorem construction_accepts_exactly (r : Request) :
    let c := r.parameters
    r.answer = c.build ∧
    ((∃ f, r.answer = .ok f) ↔
      (0.0 < c.confidence ∧ c.confidence < 1.0) ∧ OrderedEnds c.lower? c.upper? ∧
        ∀ n ∈ c.planned?, 1 ≤ n) ∧
    (∀ e, r.answer = .error e ↔ c.firstFault = some e) ∧
    (∀ e, r.answer = .error e → e.category = .configuration) ∧
    (∀ f, r.answer = .ok f →
      f.IsNewFrom c ∧
      ((∃ e, f.epsilon = .ok e) ↔
        ∃ domain planned, f.strategy = .deterministic domain planned)) := by
  intro c
  have hbuild : r.answer = c.build := r.answer_eq_build
  have hplanned : c.planned? ≠ some 0 ↔ ∀ n ∈ c.planned?, 1 ≤ n := by
    cases c.planned? <;> simp [Nat.one_le_iff_ne_zero]
  rw [hbuild]
  refine ⟨rfl, ?_, ?_, ?_, ?_⟩
  · rw [c.exists_build_iff, ← Config.Choice.endsFit_iff_orderedEnds, ← hplanned]
    exact ⟨fun h => ⟨⟨h.positive, h.below_one⟩, h.ends, h.planned⟩,
      fun ⟨⟨hpositive, hbelow⟩, hends, hplanned⟩ => ⟨hpositive, hbelow, hends, hplanned⟩⟩
  · exact fun e => Config.Choice.build_eq_error_iff
  · exact fun e he => Config.Choice.category_of_firstFault (Config.Choice.build_eq_error_iff.mp he)
  · exact fun f hf => ⟨c.isNewFrom_of_build hf, (Built.choice hf).isFresh.exists_epsilon_iff⟩

end Construction

/-- Two zeros, of which the lower end has the greater sign. -/
def zeroDomain : ValueDomain :=
  ⟨⟨0.0, -0.0⟩, by decide, by decide, by decide⟩

/-- The zeros are ends in order. Where everything is wrong the ends are named, and NaN stands for
the one that is missing. -/
theorem construction_accepts_exactly_zeros :
    (∃ f e, (Request.deterministicAt 0.5 0.0 (-0.0) 1).answer = .ok f ∧
      f.observations = 0 ∧ f.epsilon = .ok e) ∧
    (Request.deterministicAt 1.0 2.0 1.0 0).answer = .error (.invalidBounds 2.0 1.0) ∧
    (Request.choice (.largeSample ⟨1.0, none, some 1.0⟩)).answer =
      .error (.invalidBounds Numeric.nan 1.0) := by
  obtain ⟨-, -, -, -, hnew⟩ := construction_accepts_exactly (.deterministicAt 0.5 0.0 (-0.0) 1)
  obtain ⟨-, -, hrefuses, -⟩ := construction_accepts_exactly (.deterministicAt 1.0 2.0 1.0 0)
  obtain ⟨-, -, hrefuses', -⟩ :=
    construction_accepts_exactly (.choice (.largeSample ⟨1.0, none, some 1.0⟩))
  refine ⟨?_, (hrefuses _).mpr (by decide), (hrefuses' _).mpr (by decide)⟩
  have hbuilt : (Request.deterministicAt 0.5 0.0 (-0.0) 1).answer = .ok _ :=
    Aggregator.deterministicAt_of_checked half zeroDomain one_ne_zero
  obtain ⟨hfresh, hepsilon⟩ := hnew _ hbuilt
  obtain ⟨e, he⟩ := hepsilon.mpr ⟨_, _, rfl⟩
  exact ⟨_, e, hbuilt, hfresh.observations_eq, he⟩

end OnlineAggregation
