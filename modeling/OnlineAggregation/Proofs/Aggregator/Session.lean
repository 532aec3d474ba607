import OnlineAggregation.Proofs.Aggregator.Monotone
import OnlineAggregation.Proofs.Estimator.InStep

/-!
# Sessions with several chains

The accumulators that an aggregator has returned belong to its caller, who may go on from any of
them, or from nothing, whenever he likes. The aggregator does not know the chains apart: its
half-width is that of all values it accepted. Main statement: an estimate of an accumulator that
holds all these values has the half-width that the strategy gives for it; over a declared domain,
the half-width of any other estimate is at most that.
-/

namespace OnlineAggregation

open Numeric (NaturalLog)
open Aggregator (Built half unitDomain)

/-- An estimate takes its half-width from the aggregator, and its count from the accumulator. -/
theorem Aggregator.estimate_eq_ok {f : Aggregator} {a : Accumulator Float} {e : Estimate}
    (h : f.estimate a = .ok e) : f.epsilon = .ok e.epsilon ∧ e.count = a.count := by
  obtain ⟨ε, hε, he⟩ := bind_eq_ok_iff.mp h
  cases he
  exact ⟨hε, rfl⟩

/-! ## §1 Calls that choose where to go on -/

/-- An aggregator with the accumulators it has returned, the oldest first. -/
structure Session where
  aggregator : Aggregator
  returned : List (Accumulator Float)

namespace Session

/-- A value, and the place of the accumulator that it is folded into, or nothing to start anew. -/
abbrev Call : Type :=
  Option ℕ × Float

/-- The session of an aggregator that has returned nothing. -/
def ofAggregator (f : Aggregator) : Session :=
  { aggregator := f, returned := [] }

/-- The accumulator that a call hands in. -/
def chosen (s : Session) (c : Call) : Option (Accumulator Float) :=
  c.1.bind fun place => s.returned[place]?

theorem mem_returned_of_chosen {s : Session} {c : Call} {a : Accumulator Float}
    (h : s.chosen c = some a) : a ∈ s.returned := by
  obtain ⟨place, -, hplace⟩ := Option.bind_eq_some_iff.mp h
  exact List.mem_of_getElem? hplace

section Calls

variable [NaturalLog]

/-- The session after a call. What was returned before is kept, whichever of it was handed in. -/
def call (s : Session) (c : Call) : Session :=
  match s.aggregator.fold (s.chosen c) c.2 with
  | .ok next => { aggregator := next.aggregator, returned := s.returned ++ [next.accumulator] }
  | .error _ => s

def afterCalls (s : Session) (calls : List Call) : Session :=
  calls.foldl call s

/-- A finite value goes to the aggregator, and the accumulator with it is returned. -/
theorem call_of_finite (s : Session) {c : Call} (hv : c.2.isFinite = true) :
    s.call c =
      { aggregator := s.aggregator.withValue c.2
        returned := s.returned ++ [(s.chosen c).elim (.single c.2) (·.insert c.2)] } := by
  simp [call, s.aggregator.fold_of_finite (s.chosen c) hv]

theorem call_of_not_finite (s : Session) {c : Call} (hv : c.2.isFinite = false) :
    s.call c = s := by
  simp [call, s.aggregator.fold_of_not_finite (s.chosen c) hv]

theorem afterCalls_append (s : Session) (calls more : List Call) :
    s.afterCalls (calls ++ more) = (s.afterCalls calls).afterCalls more :=
  List.foldl_append

theorem afterCalls_append_singleton (s : Session) (calls : List Call) (c : Call) :
    s.afterCalls (calls ++ [c]) = (s.afterCalls calls).call c :=
  s.afterCalls_append calls [c]

/-! ## §2 What the accumulators hold -/

/-- The aggregator has taken the values `vs` as if there were one chain only, and each of the
returned accumulators holds some of the accepted ones, in their order. -/
structure Follows (s : Session) (f₀ : Aggregator) (vs : List Float) : Prop where
  aggregator_eq : s.aggregator = f₀.afterValues vs
  holds : ∀ a ∈ s.returned, ∃ zs, zs.Sublist (vs.filter Float.isFinite) ∧
    Accumulator.extended none zs = some a

variable {s : Session} {f₀ : Aggregator} {vs : List Float} {a : Accumulator Float}

/-- What a call hands in holds a part as well, if only the empty one. -/
theorem Follows.holds_chosen (h : s.Follows f₀ vs) (c : Call) :
    ∃ zs, zs.Sublist (vs.filter Float.isFinite) ∧ Accumulator.extended none zs = s.chosen c := by
  cases hchosen : s.chosen c with
  | none => exact ⟨[], List.nil_sublist _, rfl⟩
  | some a => exact h.holds a (mem_returned_of_chosen hchosen)

/-- A call returns what was handed in with one value more, which is the last of all. -/
theorem Follows.call (h : s.Follows f₀ vs) (c : Call) : (s.call c).Follows f₀ (vs ++ [c.2]) := by
  cases hv : c.2.isFinite with
  | false =>
    rw [s.call_of_not_finite hv]
    constructor
    · rw [Aggregator.afterValues_append_singleton, Aggregator.afterCall_of_not_finite _ none hv]
      exact h.aggregator_eq
    · simpa [hv] using h.holds
  | true =>
    have hfilter : (vs ++ [c.2]).filter Float.isFinite = vs.filter Float.isFinite ++ [c.2] := by
      simp [hv]
    rw [s.call_of_finite hv]
    constructor
    · rw [Aggregator.afterValues_append_singleton, Aggregator.afterCall_of_finite _ none hv,
        h.aggregator_eq]
    · rw [hfilter]
      intro a ha
      rcases List.mem_append.mp ha with hold | hnew
      · obtain ⟨zs, hsublist, hzs⟩ := h.holds a hold
        exact ⟨zs, hsublist.trans (List.sublist_append_left _ [c.2]), hzs⟩
      · obtain rfl := List.mem_singleton.mp hnew
        obtain ⟨zs, hsublist, hzs⟩ := h.holds_chosen c
        -- What was handed in need not be the latest one, but it held a part of what came before.
        refine ⟨zs ++ [c.2], hsublist.append (List.Sublist.refl [c.2]), ?_⟩
        rw [Accumulator.extended_append_singleton, hzs]

/-- So it is after any calls, however the chains are started, forked and resumed. -/
theorem follows_afterCalls (f₀ : Aggregator) (calls : List Call) :
    ((ofAggregator f₀).afterCalls calls).Follows f₀ (calls.map Prod.snd) := by
  induction calls using List.reverseRecOn with
  | nil =>
    constructor
    · rfl
    · simp [afterCalls, ofAggregator]
  | append_singleton calls c ih =>
    rw [afterCalls_append_singleton, List.map_append]
    exact ih.call c

/-! ## §3 Estimates -/

theorem Follows.remembers (h : s.Follows f₀ vs) (hbuilt : Built f₀) :
    s.aggregator.Remembers (vs.filter Float.isFinite) := by
  rw [h.aggregator_eq]
  exact hbuilt.isFresh.remembers.afterValues vs

theorem Follows.settings (h : s.Follows f₀ vs) :
    s.aggregator.confidence = f₀.confidence ∧ s.aggregator.strategy = f₀.strategy := by
  rw [h.aggregator_eq]
  exact f₀.settings_afterValues vs

/-- No accumulator holds more values than the aggregator has accepted. -/
theorem Follows.count_le (h : s.Follows f₀ vs) (hbuilt : Built f₀) (ha : a ∈ s.returned) :
    a.count ≤ s.aggregator.observations := by
  obtain ⟨zs, hsublist, hzs⟩ := h.holds a ha
  rw [Accumulator.count_extended_none hzs, (h.remembers hbuilt).observations_eq]
  exact hsublist.length_le

/-- Each of them holds a value. -/
theorem Follows.count_pos (h : s.Follows f₀ vs) (ha : a ∈ s.returned) : 0 < a.count := by
  obtain ⟨zs, -, hzs⟩ := h.holds a ha
  rw [Accumulator.count_extended_none hzs]
  apply List.length_pos_of_ne_nil
  rintro rfl
  cases hzs

/-- The half-width that the strategy gives for the values of `a` alone. -/
def ownHalfWidth (s : Session) (a : Accumulator Float) : Except EstimationError Float :=
  s.aggregator.strategy.halfWidth s.aggregator.confidence.value a.count (some a.observedRange)

/-- For an accumulator with all values the aggregator has its own half-width. -/
theorem Follows.epsilon_of_count_eq (h : s.Follows f₀ vs) (hbuilt : Built f₀)
    (hdata : f₀.strategy.dependsOnData = true) (ha : a ∈ s.returned)
    (hcount : a.count = s.aggregator.observations) : s.aggregator.epsilon = s.ownHalfWidth a := by
  obtain ⟨zs, hsublist, hzs⟩ := h.holds a ha
  obtain ⟨hconfidence, hstrategy⟩ := h.settings
  -- A part that is as long as the whole is the whole.
  have hwhole : zs = vs.filter Float.isFinite := by
    apply hsublist.eq_of_length
    rw [← Accumulator.count_extended_none hzs, hcount, (h.remembers hbuilt).observations_eq]
  rw [hwhole] at hzs
  obtain ⟨-, -, hepsilon⟩ := Aggregator.knowledge_of_nothing hbuilt.isFresh.remembers hzs
  rw [ownHalfWidth, hconfidence, hstrategy, h.aggregator_eq]
  exact hepsilon hdata

/-- Over a declared domain every accumulator has a half-width of its own, and the half-width for
all values is at most that. -/
theorem Follows.epsilon_le_own (h : s.Follows f₀ vs) (hlog : LogInRange) (hbuilt : Built f₀)
    (hdata : f₀.strategy.dependsOnData = true) {domain : ValueDomain}
    (hdomain : f₀.strategy.domain? = some domain) (ha : a ∈ s.returned)
    (hword : s.aggregator.observations < 2 ^ 64) :
    ∃ e w, s.aggregator.epsilon = .ok e ∧ s.ownHalfWidth a = .ok w ∧ e ≤ w := by
  have hremembers := h.remembers hbuilt
  have hpos := h.count_pos ha
  have hle := h.count_le hbuilt ha
  rw [← h.settings.2] at hdata hdomain
  have hys : vs.filter Float.isFinite ≠ [] := by
    apply List.ne_nil_of_length_pos
    rw [← hremembers.observations_eq]
    exact hpos.trans_le hle
  refine ⟨_, _, hremembers.epsilon_of_domain hdata hdomain hys,
    Strategy.halfWidth_of_domain _ hpos.ne' hdata hdomain _, ?_⟩
  rw [← hremembers.observations_eq]
  exact ConfidenceLevel.hoeffding_antitone hlog _ hpos hle hword domain.width_nonneg

/-- **An estimate rests on all values**: whatever chains were started, forked and resumed, its
half-width is what the strategy gives for the number and the range of all accepted values, and its
count is at most their number. If the accumulator holds all of them, that is its own half-width.
Otherwise, over a declared domain, its own is at least as great: the estimate of an accumulator
that was left behind claims more data than the accumulator holds. -/
theorem estimate_rests_on_all_values (hlog : LogInRange) (hbuilt : Built f₀)
    (hdata : f₀.strategy.dependsOnData = true) (calls : List Call) :
    let s := (ofAggregator f₀).afterCalls calls
    let f := s.aggregator
    f.observations < 2 ^ 64 → ∀ a ∈ s.returned, ∀ e, f.estimate a = .ok e →
      f.strategy.halfWidth f.confidence.value f.observations f.observed = .ok e.epsilon ∧
      e.count = a.count ∧ a.count ≤ f.observations ∧
      (a.count = f.observations →
        ∃ w, s.ownHalfWidth a = .ok w ∧ w = e.epsilon ∧ w ≤ e.epsilon) ∧
      (f.strategy.domain? ≠ none → ∃ w, s.ownHalfWidth a = .ok w ∧ e.epsilon ≤ w) := by
  intro s f hword a ha e hestimate
  have hfollows : s.Follows f₀ (calls.map Prod.snd) := follows_afterCalls f₀ calls
  have hremembers := hfollows.remembers hbuilt
  have hdata' : f.strategy.dependsOnData = true := hfollows.settings.2 ▸ hdata
  obtain ⟨hepsilon, hcount⟩ := Aggregator.estimate_eq_ok hestimate
  -- There is an estimate, so there is a half-width, and so there were values.
  have hys : (calls.map Prod.snd).filter Float.isFinite ≠ [] := by
    intro hnil
    have hnone : f.epsilon? = none := hremembers.epsilon_of_nil hdata' hnil
    simp [Aggregator.epsilon, hnone] at hepsilon
  refine ⟨?_, hcount, hfollows.count_le hbuilt ha, ?_, ?_⟩
  · rw [← hremembers.epsilon_eq_halfWidth hdata' hys, hepsilon]
  · intro hwhole
    have hown := hfollows.epsilon_of_count_eq hbuilt hdata ha hwhole
    have hnonneg : 0.0 ≤ e.epsilon := by
      apply hremembers.epsilon_nonneg hlog hdata' _ hepsilon
      rwa [← hremembers.observations_eq]
    obtain ⟨x, hx⟩ := Binary64.exists_reads (Binary64.isNaN_eq_false_of_le hnonneg).2
    exact ⟨e.epsilon, hown.symm.trans hepsilon, rfl, hx.le_self⟩
  · intro hdeclared
    obtain ⟨domain, hdomain⟩ := Option.ne_none_iff_exists'.mp hdeclared
    obtain ⟨e', w, he', hw, hle⟩ := hfollows.epsilon_le_own hlog hbuilt hdata
      (hfollows.settings.2 ▸ hdomain) ha hword
    obtain rfl : e.epsilon = e' := Except.ok.inj (hepsilon.symm.trans he')
    exact ⟨w, hw, hle⟩

end Calls

/-- A conservative aggregator for values from 0 to 1. -/
def unitAggregator : Aggregator :=
  ⟨half, .conservative unitDomain, 0, none, none⟩

theorem built_unitAggregator : @Built logAtFour unitAggregator :=
  @Built.conservative logAtFour _ _ _ _ (@Aggregator.conservative_of_checked logAtFour half unitDomain)

/-- A chain that is resumed after a refused value has its own half-width. -/
theorem estimate_rests_on_all_values_resumed :
    let s := @afterCalls logAtFour (ofAggregator unitAggregator)
      [(none, 0.5), (some 0, Numeric.nan), (some 0, 0.25)]
    ∃ a ∈ s.returned, ∃ e w, s.aggregator.estimate a = .ok e ∧
      @ownHalfWidth logAtFour s a = .ok w ∧ w ≤ e.epsilon := by
  intro s
  have ha : (Accumulator.single 0.5).insert 0.25 ∈ s.returned := by decide +kernel
  have hestimate : s.aggregator.estimate ((Accumulator.single 0.5).insert 0.25) =
      .ok ⟨2, 0.375, @ConfidenceLevel.hoeffding logAtFour half 2 unitDomain.width, 0.5⟩ := by
    decide +kernel
  obtain ⟨-, -, -, hwhole, -⟩ := @estimate_rests_on_all_values logAtFour _ logInRange_logAtFour
    built_unitAggregator rfl [(none, 0.5), (some 0, Numeric.nan), (some 0, 0.25)] (by decide +kernel)
    _ ha _ hestimate
  obtain ⟨w, hw, -, hle⟩ := hwhole (by decide +kernel)
  exact ⟨_, ha, _, w, hestimate, hw, hle⟩

/-- A second chain is started, and the estimate of the first has a smaller half-width than the
strategy gives for its one value. -/
theorem estimate_smaller_than_own :
    ∃ log : NaturalLog, @LogInRange log ∧
      @Aggregator.conservative log 0.5 0.0 1.0 = .ok unitAggregator ∧
      let s := @afterCalls log (ofAggregator unitAggregator) [(none, 0.5), (none, 0.25)]
      ∃ a ∈ s.returned, ∃ e w, s.aggregator.estimate a = .ok e ∧
        @ownHalfWidth log s a = .ok w ∧ ¬ w ≤ e.epsilon := by
  refine ⟨logAtFour, logInRange_logAtFour,
    @Aggregator.conservative_of_checked logAtFour half unitDomain, .single 0.5, ?_,
    ⟨1, 0.5, @ConfidenceLevel.hoeffding logAtFour half 2 unitDomain.width, 0.5⟩,
    @ConfidenceLevel.hoeffding logAtFour half 1 unitDomain.width, ?_, ?_, ?_⟩
  · decide +kernel
  · decide +kernel
  · decide +kernel
  · decide +kernel

end Session

end OnlineAggregation
