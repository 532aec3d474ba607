import OnlineAggregation.Proofs.Aggregator.InPlace
import OnlineAggregation.Proofs.Bound.EqualEnds
import OnlineAggregation.Proofs.Run.Report

/-!
# Estimators in step

An estimator has the count and the range of its values twice, in its accumulator and in its
aggregator, and different code keeps the two. Here a value is added in place, so that a refusal in
the middle could leave one of them behind. Main statement: after any additions the two agree, and
the three ways of asking for an estimate tell the same story about them.
-/

namespace OnlineAggregation

open Numeric (NaturalLog)
open Aggregator (Built Call acceptedValues)

/-! ## §1 Adding in place -/

/-- A variable that holds an estimator, and the log. -/
structure EstimatorRecorder where
  recorder : Recorder
  accumulator? : Option (Accumulator Float)

namespace EstimatorRecorder

/-- The variable with a new estimator. -/
def ofAggregator (f : Aggregator) (log : List Event) : EstimatorRecorder :=
  { recorder := ⟨f, log⟩, accumulator? := none }

def estimator (s : EstimatorRecorder) : Estimator :=
  { aggregator := s.recorder.aggregator, accumulator? := s.accumulator? }

section Adding

variable [NaturalLog]

/-- Adds a value: the aggregator folds it in place, and the new accumulator is assigned after it. -/
def addInPlace (s : EstimatorRecorder) (v : Float) :
    Except EstimationError Unit × EstimatorRecorder :=
  match (Recorder.foldInPlace s.accumulator? v).run.run s.recorder with
  | (.ok next, recorder) => (.ok (), { recorder, accumulator? := some next })
  -- Whatever the fold has done to the aggregator by then stays.
  | (.error cause, recorder) => (.error cause, { s with recorder })

/-- In place or not, adding is the same. -/
theorem addInPlace_eq_add (s : EstimatorRecorder) (v : Float) :
    s.addInPlace v =
      match s.estimator.add v with
      | .ok (e, events) =>
        (.ok (), ⟨⟨e.aggregator, s.recorder.log ++ events⟩, e.accumulator?⟩)
      | .error cause => (.error cause, s) := by
  rw [addInPlace, Recorder.run_foldInPlace, Estimator.add, estimator]
  cases s.recorder.aggregator.fold s.accumulator? v <;> rfl

/-- A refused value leaves the variable and the log as they were. -/
theorem addInPlace_of_not_finite (s : EstimatorRecorder) {v : Float} (hv : v.isFinite = false) :
    s.addInPlace v = (.error (.nonFiniteValue v), s) := by
  rw [addInPlace, Recorder.run_foldInPlace_of_not_finite _ _ hv]

theorem addInPlace_of_finite (s : EstimatorRecorder) {v : Float} (hv : v.isFinite = true) :
    (s.addInPlace v).1 = .ok () ∧
      (s.addInPlace v).2.estimator =
        ⟨s.recorder.aggregator.withValue v,
          some (s.accumulator?.elim (.single v) (·.insert v))⟩ := by
  rw [addInPlace, Recorder.run_foldInPlace_of_finite _ _ hv]
  exact ⟨rfl, rfl⟩

/-- The variable after several additions, whether the values were accepted or refused. -/
def afterAdds (s : EstimatorRecorder) (vs : List Float) : EstimatorRecorder :=
  vs.foldl (fun s v => (s.addInPlace v).2) s

/-- Aggregator and accumulator have both taken the accepted values, and nothing else. -/
theorem estimator_afterAdds (s : EstimatorRecorder) (vs : List Float) :
    (s.afterAdds vs).estimator =
      ⟨s.recorder.aggregator.afterValues vs,
        Accumulator.extended s.accumulator? (vs.filter Float.isFinite)⟩ := by
  induction vs generalizing s with
  | nil => rfl
  | cons v vs ih =>
    have hstep : (s.afterAdds (v :: vs)).estimator = _ := ih (s.addInPlace v).2
    rw [hstep]
    cases hv : v.isFinite with
    | true =>
      have hadded := (s.addInPlace_of_finite hv).2
      have haggregator : (s.addInPlace v).2.recorder.aggregator =
          s.recorder.aggregator.withValue v := congrArg Estimator.aggregator hadded
      have haccumulator : (s.addInPlace v).2.accumulator? =
          some (s.accumulator?.elim (.single v) (·.insert v)) :=
        congrArg Estimator.accumulator? hadded
      rw [haggregator, haccumulator, List.filter_cons_of_pos hv, Aggregator.afterValues_cons,
        Aggregator.afterCall_of_finite _ none hv]
      rfl
    | false =>
      rw [s.addInPlace_of_not_finite hv, List.filter_cons_of_neg (by simp [hv]),
        Aggregator.afterValues_cons, Aggregator.afterCall_of_not_finite _ none hv]

end Adding

end EstimatorRecorder

/-! ## §2 Counts and ranges -/

namespace Accumulator

/-- The ends as the accumulator keeps them. -/
def ends (a : Accumulator Float) : ValueRange :=
  ⟨a.least, a.greatest⟩

theorem extended_append_singleton (a : Option (Accumulator Float)) (ys : List Float) (y : Float) :
    extended a (ys ++ [y]) = some ((extended a ys).elim (.single y) (·.insert y)) := by
  simp [extended]

/-- No accumulator comes from no values. -/
theorem extended_none_eq_none_iff (ys : List Float) : extended none ys = none ↔ ys = [] := by
  cases ys with
  | nil => simp [extended]
  | cons y ys => simp [extended_none_cons]

/-- From nothing the values are counted. -/
theorem count_extended_none {ys : List Float} {a : Accumulator Float}
    (h : extended none ys = some a) : a.count = ys.length := by
  cases ys with
  | nil => cases h
  | cons y ys =>
    rw [extended_none_cons] at h
    cases h
    exact count_ofValues y ys

variable {a : Accumulator Float} {ys : List Float}

/-- As a range, ends that enclose a list are kept, up to the sign of a zero. -/
theorem observedRange_cases (h : a.ends.IsHullOf ys) :
    a.observedRange = a.ends ∨
      a.observedRange = .point a.greatest ∧ (a.least == a.greatest) = true := by
  obtain ⟨l, hl⟩ := Binary64.isFinite_iff_exists_reads.mp h.lower_finite
  obtain ⟨u, hu⟩ := Binary64.isFinite_iff_exists_reads.mp h.upper_finite
  have hlu : (l : EReal) ≤ u := (hl.le_iff hu).mp h.ordered
  have hnot : ¬ a.greatest < a.least := by
    intro hlt
    exact absurd ((hu.lt_iff hl).mp hlt) (not_lt.mpr hlu)
  have hrange : a.observedRange =
      ⟨if a.least < a.greatest then a.least else a.greatest, a.greatest⟩ := by
    rw [observedRange, ValueRange.point, ValueRange.widen, if_neg hnot]
  by_cases hlt : a.least < a.greatest
  · left
    rw [hrange, if_pos hlt]
    rfl
  · right
    have hul : (u : EReal) ≤ l := not_lt.mp (mt (hl.lt_iff hu).mpr hlt)
    rw [hrange, if_neg hlt]
    exact ⟨rfl, (hl.beq_iff hu).mpr (hlu.antisymm hul)⟩

/-- The range of the accumulator has the ends of the hull as numbers. -/
theorem observedRange_beq (h : a.ends.IsHullOf ys) :
    (a.ends.lower == a.observedRange.lower) = true ∧
      (a.ends.upper == a.observedRange.upper) = true := by
  have hself : ∀ {x : Float}, x.isFinite = true → (x == x) = true := by
    intro x hx
    obtain ⟨t, ht⟩ := Binary64.isFinite_iff_exists_reads.mp hx
    exact (ht.beq_iff ht).mpr rfl
  rcases observedRange_cases h with hsame | ⟨hpoint, hequal⟩
  · rw [hsame]
    exact ⟨hself h.lower_finite, hself h.upper_finite⟩
  · rw [hpoint]
    exact ⟨hequal, hself h.upper_finite⟩

/-- No strategy tells the two ranges apart. -/
theorem halfWidth_observedRange [NaturalLog] (h : a.ends.IsHullOf ys) (s : Strategy)
    (confidence : Float) (seen : Nat) :
    s.halfWidth confidence seen (some a.ends) =
      s.halfWidth confidence seen (some a.observedRange) := by
  obtain ⟨hlower, hupper⟩ := observedRange_beq h
  exact s.halfWidth_sameEnds confidence seen ⟨hlower, hupper⟩ h.lower_finite h.upper_finite

end Accumulator

namespace Aggregator

variable [NaturalLog]

/-- An aggregator without values and an accumulator from nothing come to the same ends. -/
theorem observed_afterValues {f : Aggregator} (hfresh : f.observed = none) (vs : List Float) :
    (f.afterValues vs).observed =
      (Accumulator.extended none (vs.filter Float.isFinite)).map Accumulator.ends := by
  induction vs using List.reverseRecOn with
  | nil => exact hfresh
  | append_singleton vs v ih =>
    cases hv : v.isFinite with
    | true =>
      rw [afterValues_append_singleton, afterCall_of_finite _ none hv, List.filter_append,
        List.filter_cons_of_pos hv, List.filter_nil, Accumulator.extended_append_singleton]
      change some ((f.afterValues vs).observedWith v) = _
      rw [observedWith, ih]
      cases Accumulator.extended none (vs.filter Float.isFinite) <;> rfl
    | false =>
      rw [afterValues_append_singleton, afterCall_of_not_finite _ none hv, List.filter_append,
        List.filter_cons_of_neg (by simp [hv]), List.filter_nil, List.append_nil, ih]

/-- What is remembered grows by the values that are accepted. -/
theorem Remembers.afterValues {f : Aggregator} {ys : List Float} (h : f.Remembers ys)
    (vs : List Float) : (f.afterValues vs).Remembers (ys ++ vs.filter Float.isFinite) := by
  induction vs generalizing f ys with
  | nil => simpa [Aggregator.afterValues, afterCalls] using h
  | cons v vs ih =>
    have hstep := ih (h.afterCall (none, v))
    rw [afterValues_cons]
    cases hv : v.isFinite with
    | true => simpa [hv] using hstep
    | false => simpa [hv] using hstep

theorem settings_afterValues (f : Aggregator) (vs : List Float) :
    (f.afterValues vs).confidence = f.confidence ∧ (f.afterValues vs).strategy = f.strategy :=
  f.afterCalls_settings _

/-- Once there is a value, a half-width that looks at the data is the answer of the strategy. -/
theorem Remembers.epsilon_eq_halfWidth {f : Aggregator} {ys : List Float} (h : f.Remembers ys)
    (hdata : f.strategy.dependsOnData = true) (hne : ys ≠ []) :
    f.epsilon = f.strategy.halfWidth f.confidence.value f.observations f.observed := by
  obtain ⟨hok, herror⟩ := h.epsilon_eq_answer hdata hne
  cases hanswer : f.strategy.halfWidth f.confidence.value f.observations f.observed with
  | ok ε => simp [epsilon, hok ε hanswer]
  | error cause =>
    obtain ⟨rfl, hnone⟩ := herror cause hanswer
    simp [epsilon, hnone]

/-- Without earlier values the aggregator knows of the values what the accumulator knows. -/
theorem knowledge_of_nothing {f : Aggregator} (h : f.Remembers []) {vs : List Float}
    {a : Accumulator Float} (ha : Accumulator.extended none (vs.filter Float.isFinite) = some a) :
    (f.afterValues vs).observed = some a.ends ∧ a.ends.IsHullOf (vs.filter Float.isFinite) ∧
      (f.strategy.dependsOnData = true → (f.afterValues vs).epsilon =
        f.strategy.halfWidth f.confidence.value a.count (some a.observedRange)) := by
  set ys := vs.filter Float.isFinite with hys
  set g := f.afterValues vs with hg
  obtain ⟨hconfidence, hstrategy⟩ := f.settings_afterValues vs
  have hafter : g.Remembers ys := h.afterValues vs
  have hne : ys ≠ [] := by
    rintro hnil
    rw [hnil] at ha
    cases ha
  have hobserved : g.observed = some a.ends := by
    rw [hg, observed_afterValues (h.observed_of_nil rfl) vs, ← hys, ha]
    rfl
  obtain ⟨r, hr, hhull⟩ := hafter.observed_of_ne_nil hne
  -- The ends of the accumulator are stored, and what is stored is the hull.
  obtain rfl : a.ends = r := by simpa [hobserved] using hr
  refine ⟨hobserved, hhull, fun hdata => ?_⟩
  have hcount : g.observations = a.count := by
    rw [hafter.observations_eq, Accumulator.count_extended_none ha]
  calc g.epsilon
      = g.strategy.halfWidth g.confidence.value g.observations g.observed :=
        hafter.epsilon_eq_halfWidth (hstrategy ▸ hdata) hne
    _ = f.strategy.halfWidth f.confidence.value a.count (some a.ends) := by
        rw [hstrategy, hconfidence, hcount, hobserved]
    _ = f.strategy.halfWidth f.confidence.value a.count (some a.observedRange) :=
        Accumulator.halfWidth_observedRange hhull _ _ _

end Aggregator

/-! ## §3 Views -/

namespace Estimator

variable (e : Estimator)

/-- What the estimate is in each of the three situations. -/
theorem estimate_eq :
    e.estimate =
      match e.accumulator?, e.aggregator.epsilon? with
      | none, _ => .ok none
      | some _, none => .error .halfWidthUnavailable
      | some a, some ε => .ok (some ⟨a.count, a.mean, ε, e.aggregator.confidence.value⟩) := by
  obtain ⟨f, a⟩ := e
  cases a with
  | none => rfl
  | some a =>
    simp only [estimate, Aggregator.estimate, Aggregator.epsilon]
    cases f.epsilon? <;> rfl

/-- The estimate with `∞` for a missing half-width, in the same situations. -/
theorem estimateOrUnbounded_eq :
    e.estimateOrUnbounded =
      match e.estimate with
      | .ok x => x
      | .error _ => e.accumulator?.map fun a =>
          ⟨a.count, a.mean, Numeric.infinity, e.aggregator.confidence.value⟩ := by
  rw [estimate_eq]
  obtain ⟨⟨confidence, strategy, observations, observed, epsilon?⟩, a⟩ := e
  cases a <;> cases epsilon? <;> rfl

/-- A missing half-width is the only thing that the half-width can report. -/
theorem epsilon_eq_error {cause : EstimationError} (h : e.epsilon = .error cause) :
    cause = .halfWidthUnavailable := by
  unfold epsilon Aggregator.epsilon at h
  split at h
  · cases h
  · cases h
    rfl

theorem estimate_eq_none_iff : e.estimate = .ok none ↔ e.accumulator? = none := by
  rw [estimate_eq]
  obtain ⟨⟨confidence, strategy, observations, observed, epsilon?⟩, a⟩ := e
  cases a <;> cases epsilon? <;> simp

/-- The estimate fails for one reason, and says which. -/
theorem estimate_eq_error_iff (cause : EstimationError) :
    e.estimate = .error cause ↔ e.accumulator? ≠ none ∧ e.epsilon = .error cause := by
  rw [estimate_eq]
  obtain ⟨⟨confidence, strategy, observations, observed, epsilon?⟩, a⟩ := e
  cases a <;> cases epsilon? <;> simp [epsilon, Aggregator.epsilon]

/-- An estimate is of the accumulator, with the half-width as it is. -/
theorem estimate_eq_some_iff (x : Estimate) :
    e.estimate = .ok (some x) ↔
      ∃ a ε, e.accumulator? = some a ∧ e.epsilon = .ok ε ∧
        x = ⟨a.count, a.mean, ε, e.aggregator.confidence.value⟩ := by
  rw [estimate_eq]
  obtain ⟨⟨confidence, strategy, observations, observed, epsilon?⟩, a⟩ := e
  cases a <;> cases epsilon? <;> simp [epsilon, Aggregator.epsilon, eq_comm]

end Estimator

/-! ## §4 Whole histories -/

namespace EstimatorRecorder

variable [NaturalLog]

/-- **Aggregator and accumulator stay in step**, from whatever reachable state of the aggregator the
estimator was made and whatever was added to it. There is an accumulator once a value was accepted,
and the aggregator has counted its values on from those before. If there were none before, both have
the same range as numbers, and a half-width that looks at the data is the one of the accumulator.
The estimate is absent without an accumulator; it fails if there is one but no half-width; else it
has the mean and the half-width. With `∞` for a missing half-width it is the same otherwise. A
refused value leaves all of this as it was. -/
theorem adds_keep_in_step {f₀ : Aggregator} (hbuilt : Built f₀) (calls : List Call)
    (log : List Event) (vs : List Float) :
    let f := f₀.afterCalls calls
    let s := (ofAggregator f log).afterAdds vs
    let e := s.estimator
    let accepted := vs.filter Float.isFinite
    ((e.accumulator? = none ↔ accepted = []) ∧
      ∀ a, e.accumulator? = some a →
        a.count = accepted.length ∧
        e.aggregator.observations = f.observations + a.count ∧
        (f.observations = 0 →
          (∃ r, e.aggregator.observed = some r ∧ (r.lower == a.observedRange.lower) = true ∧
            (r.upper == a.observedRange.upper) = true) ∧
          (f.strategy.dependsOnData = true →
            e.epsilon =
              f.strategy.halfWidth f.confidence.value a.count (some a.observedRange)))) ∧
    (e.estimate = .ok none ↔ e.accumulator? = none) ∧
    (∀ cause, e.estimate = .error cause ↔
      accepted ≠ [] ∧ cause = .halfWidthUnavailable ∧ e.epsilon = .error .halfWidthUnavailable) ∧
    (∀ x, e.estimate = .ok (some x) ↔ ∃ a ε, e.accumulator? = some a ∧ e.epsilon = .ok ε ∧
      x = ⟨a.count, a.mean, ε, f.confidence.value⟩) ∧
    (e.estimate = .ok none → e.estimateOrUnbounded = none) ∧
    (∀ cause, e.estimate = .error cause → ∃ a, e.accumulator? = some a ∧
      e.estimateOrUnbounded = some ⟨a.count, a.mean, Numeric.infinity, f.confidence.value⟩) ∧
    (∀ x, e.estimate = .ok (some x) → e.estimateOrUnbounded = some x) ∧
    ∀ v cause, (s.addInPlace v).1 = .error cause →
      v.isFinite = false ∧ (s.addInPlace v).2 = s := by
  intro f s e accepted
  have he : e = ⟨f.afterValues vs, Accumulator.extended none accepted⟩ :=
    estimator_afterAdds (ofAggregator f log) vs
  have hlevel : e.aggregator.confidence = f.confidence := by rw [he, (f.settings_afterValues vs).1]
  have hnone : e.accumulator? = none ↔ accepted = [] := by
    rw [he]
    exact Accumulator.extended_none_eq_none_iff accepted
  have hsome : e.accumulator? ≠ none ↔ accepted ≠ [] := hnone.not
  -- The aggregator may have counted values of other accumulators before this one was begun.
  have hbefore : f.Remembers (acceptedValues calls) := hbuilt.remembers calls
  refine ⟨⟨hnone, ?_⟩, e.estimate_eq_none_iff, ?_, ?_, ?_, ?_, ?_, ?_⟩
  · intro a ha
    have hextended : Accumulator.extended none accepted = some a := by rw [← ha, he]
    have hcount : a.count = accepted.length := Accumulator.count_extended_none hextended
    refine ⟨hcount, ?_, fun hzero => ?_⟩
    · rw [he, (hbefore.afterValues vs).observations_eq, hbefore.observations_eq,
        List.length_append, hcount]
    · -- If it had not, both have seen the same values.
      have hnil : acceptedValues calls = [] := by
        rw [← List.length_eq_zero_iff, ← hbefore.observations_eq, hzero]
      rw [hnil] at hbefore
      obtain ⟨hobserved, hhull, hepsilon⟩ := Aggregator.knowledge_of_nothing hbefore hextended
      rw [he]
      exact ⟨⟨a.ends, hobserved, Accumulator.observedRange_beq hhull⟩, hepsilon⟩
  · intro cause
    rw [e.estimate_eq_error_iff, hsome]
    refine and_congr_right fun _ => ⟨fun h => ?_, fun ⟨hcause, h⟩ => hcause ▸ h⟩
    -- There is no other way for a half-width to fail.
    obtain rfl := e.epsilon_eq_error h
    exact ⟨rfl, h⟩
  · intro x
    rw [e.estimate_eq_some_iff, hlevel]
  · intro h
    rw [e.estimateOrUnbounded_eq, h]
  · intro cause h
    obtain ⟨hpresent, -⟩ := (e.estimate_eq_error_iff cause).mp h
    obtain ⟨a, ha⟩ := Option.ne_none_iff_exists'.mp hpresent
    refine ⟨a, ha, ?_⟩
    rw [e.estimateOrUnbounded_eq, h, ha, hlevel]
    rfl
  · intro x h
    rw [e.estimateOrUnbounded_eq, h]
  · intro v cause h
    cases hv : v.isFinite with
    | true =>
      rw [(s.addInPlace_of_finite hv).1] at h
      cases h
    | false =>
      rw [s.addInPlace_of_not_finite hv]
      exact ⟨rfl, rfl⟩

end EstimatorRecorder

/-- A value before and a value after a refused one are counted twice over. -/
theorem EstimatorRecorder.adds_keep_in_step_two :
    let s := (ofAggregator ⟨Aggregator.half, .largeSample none, 0, none, none⟩ []).afterAdds
      [2.0, Numeric.nan, 3.0]
    ∀ a, s.estimator.accumulator? = some a →
      a.count = ([2.0, Numeric.nan, 3.0].filter Float.isFinite).length ∧
        s.estimator.aggregator.observations = 0 + a.count := by
  intro s a ha
  obtain ⟨⟨-, hsome⟩, -⟩ := adds_keep_in_step (.largeSample Aggregator.largeSample_half) [] []
    [2.0, Numeric.nan, 3.0]
  obtain ⟨hcount, hobservations, -⟩ := hsome a ha
  exact ⟨hcount, hobservations⟩

end OnlineAggregation
