import OnlineAggregation.Proofs.Aggregator.DeclaredDomain
import OnlineAggregation.Proofs.Aggregator.Monotone
import OnlineAggregation.Proofs.Run.Sources

/-!
# Two runs side by side

Two runs over a declared domain go on in step if their aggregators have the same bound and their
sources give related values: equal ones, or ones of which only the finiteness is the same. Main
statement: over a declared domain the values do not influence when a run stops. It takes as many
values, gives estimates and refusals at the same places and shows the same half-widths, and only the
means are those of the values.
-/

namespace OnlineAggregation

open Numeric (NaturalLog)

/-! ## §1 Related sources -/

section Sources

variable {σ σ' : Type} [Std.Stream σ Float] [Std.Stream σ' Float] {V : Float → Float → Prop}

/-- The values are related one by one, and one source ends where the other does. -/
def SourcesRelated (V : Float → Float → Prop) (source : σ) (source' : σ') : Prop :=
  ∀ k, List.Forall₂ V (firstValues k source) (firstValues k source')

theorem sourcesRelated_lists {vs ws : List Float} (h : List.Forall₂ V vs ws) :
    SourcesRelated V vs ws := by
  intro k
  rw [firstValues_list, firstValues_list]
  exact List.forall₂_take k h

theorem sourcesRelated_self (source : σ) : SourcesRelated (· = ·) source source :=
  fun _ => List.forall₂_same.mpr fun _ _ => rfl

/-- Both sources are at their end, or both give a value. -/
theorem SourcesRelated.next?_cases {source : σ} {source' : σ'} (h : SourcesRelated V source source') :
    (Std.Stream.next? source = (none : Option (Float × σ)) ∧
      Std.Stream.next? source' = (none : Option (Float × σ'))) ∨
    ∃ v rest w rest', Std.Stream.next? source = some (v, rest) ∧
      Std.Stream.next? source' = some (w, rest') ∧ V v w ∧ SourcesRelated V rest rest' := by
  -- The first value of each is enough to see whether only one of them is at its end.
  cases hsource : (Std.Stream.next? source : Option (Float × σ)) with
  | none =>
    cases hsource' : (Std.Stream.next? source' : Option (Float × σ')) with
    | none => exact Or.inl ⟨rfl, rfl⟩
    | some pulled =>
      have hfirst := h 1
      rw [firstValues_of_none hsource, firstValues_of_some hsource'] at hfirst
      cases hfirst
  | some pulled =>
    obtain ⟨v, rest⟩ := pulled
    cases hsource' : (Std.Stream.next? source' : Option (Float × σ')) with
    | none =>
      have hfirst := h 1
      rw [firstValues_of_some hsource, firstValues_of_none hsource'] at hfirst
      cases hfirst
    | some pulled =>
      obtain ⟨w, rest'⟩ := pulled
      have hfirst : ∀ k, V v w ∧ List.Forall₂ V (firstValues k rest) (firstValues k rest') := by
        intro k
        have hvalues := h (k + 1)
        rw [firstValues_of_some hsource, firstValues_of_some hsource'] at hvalues
        exact List.forall₂_cons.mp hvalues
      exact Or.inr ⟨v, rest, w, rest', rfl, rfl, (hfirst 0).1, fun k => (hfirst k).2⟩

end Sources

/-! ## §2 Related runs -/

/-- Related values are accepted alike, and keep accumulators related. -/
structure Carries (V : Float → Float → Prop) (A : Accumulator Float → Accumulator Float → Prop) :
    Prop where
  alike : ∀ {v w}, V v w → AcceptedAlike v w
  single : ∀ {v w}, V v w → A (.single v) (.single w)
  insert : ∀ {a b v w}, A a b → V v w → A (a.insert v) (b.insert w)

/-- Estimates of related accumulators with the same half-width, or refusals of related values. -/
inductive ItemsRelated (V : Float → Float → Prop) (A : Accumulator Float → Accumulator Float → Prop) :
    Item → Item → Prop where
  | estimates {a b : Accumulator Float} (h : A a b) (epsilon confidence : Float) :
    ItemsRelated V A (.ok ⟨a.count, a.mean, epsilon, confidence⟩)
      (.ok ⟨b.count, b.mean, epsilon, confidence⟩)
  | refusals {v w : Float} (h : V v w) :
    ItemsRelated V A (.error (.nonFiniteValue v)) (.error (.nonFiniteValue w))

section Runs

variable [NaturalLog] {σ σ' : Type} {V : Float → Float → Prop}
  {A : Accumulator Float → Accumulator Float → Prop} {domain : ValueDomain}

omit [NaturalLog] in
theorem Carries.extend (hcarries : Carries V A) {a b : Option (Accumulator Float)}
    (hab : Option.Rel A a b) {v w : Float} (hvw : V v w) :
    A (a.elim (.single v) (·.insert v)) (b.elim (.single w) (·.insert w)) := by
  cases hab with
  | none => exact hcarries.single hvw
  | some hab => exact hcarries.insert hab hvw

omit [NaturalLog] in
/-- The half-width that is shown belongs to the bound. -/
theorem Aggregator.SameBound.emitted_eq {f g : Aggregator} (h : SameBound domain f g)
    (a : Accumulator Float) : f.emitted a = g.emitted a := by
  simp only [emitted, epsilon, h.epsilon_eq, h.confidence_eq]

variable [Std.Stream σ Float] [Std.Stream σ' Float]

/-- The same bound and target, related accumulators, and related values to come. -/
structure RunsRelated (domain : ValueDomain) (V : Float → Float → Prop)
    (A : Accumulator Float → Accumulator Float → Prop) (r : PrecisionRun σ)
    (r' : PrecisionRun σ') : Prop where
  bound : Aggregator.SameBound domain r.estimator.aggregator r'.estimator.aggregator
  accumulators : Option.Rel A r.estimator.accumulator? r'.estimator.accumulator?
  target_eq : r.target = r'.target
  sources : SourcesRelated V r.source r'.source

variable {r : PrecisionRun σ} {r' : PrecisionRun σ'}

namespace RunsRelated

omit [NaturalLog] in
theorem reached_eq (h : RunsRelated domain V A r r') : r.reached = r'.reached := by
  simp only [PrecisionRun.reached, Estimator.epsilon, Aggregator.epsilon, h.bound.epsilon_eq,
    h.target_eq]

/-- Related values are accepted or refused together, and what is shown of them is related. -/
theorem accept (hcarries : Carries V A) (h : RunsRelated domain V A r r') {v w : Float}
    (hvw : V v w) {rest : σ} {rest' : σ'} (hrest : SourcesRelated V rest rest') :
    ItemsRelated V A (r.accept v rest).item (r'.accept w rest').item ∧
      RunsRelated domain V A (r.accept v rest).run (r'.accept w rest').run := by
  have halike : v.isFinite = w.isFinite := hcarries.alike hvw
  cases hv : v.isFinite with
  | true =>
    obtain ⟨hitem, hrun⟩ := r.accept_of_fold_ok (Aggregator.fold_of_finite _ _ hv) rest
    obtain ⟨hitem', hrun'⟩ :=
      r'.accept_of_fold_ok (Aggregator.fold_of_finite _ _ (halike.symm.trans hv)) rest'
    have hbound := h.bound.withValue v w
    have hextend := hcarries.extend h.accumulators hvw
    rw [hitem, hrun, hitem', hrun', ← hbound.emitted_eq]
    exact ⟨.estimates hextend _ _, hbound, .some hextend, h.target_eq, hrest⟩
  | false =>
    obtain ⟨hitem, hrun⟩ := r.accept_of_fold_error (Aggregator.fold_of_not_finite _ _ hv) rest
    obtain ⟨hitem', hrun'⟩ :=
      r'.accept_of_fold_error (Aggregator.fold_of_not_finite _ _ (halike.symm.trans hv)) rest'
    rw [hitem, hrun, hitem', hrun']
    exact ⟨.refusals hvw, h.bound, h.accumulators, h.target_eq, hrest⟩

/-- Both runs give no further item, or both give one and stay related. -/
theorem next? (hcarries : Carries V A) (h : RunsRelated domain V A r r') :
    (r.next? = none ∧ r'.next? = none) ∨
    ∃ step step', r.next? = some step ∧ r'.next? = some step' ∧
      ItemsRelated V A step.item step'.item ∧ RunsRelated domain V A step.run step'.run := by
  cases hreached : r.reached with
  | true =>
    have hreached' : r'.reached = true := h.reached_eq.symm.trans hreached
    exact Or.inl ⟨PrecisionRun.next?_of_reached hreached, PrecisionRun.next?_of_reached hreached'⟩
  | false =>
    have hreached' : r'.reached = false := h.reached_eq.symm.trans hreached
    rcases h.sources.next?_cases with ⟨hend, hend'⟩ | ⟨v, rest, w, rest', hv, hw, hvw, hrest⟩
    · refine Or.inl ⟨?_, ?_⟩
      · simp [PrecisionRun.next?, hreached, hend]
      · simp [PrecisionRun.next?, hreached', hend']
    · refine Or.inr ⟨r.accept v rest, r'.accept w rest', ?_, ?_, h.accept hcarries hvw hrest⟩
      · simp [PrecisionRun.next?, hreached, hv]
      · simp [PrecisionRun.next?, hreached', hw]

/-- **Related runs stay related**: after any number of steps they have given as many items, each
related to its counterpart, and have ended both or neither. -/
theorem take (hcarries : Carries V A) (h : RunsRelated domain V A r r') (k : ℕ) :
    List.Forall₂ (ItemsRelated V A) (r.take k).items (r'.take k).items ∧
      RunsRelated domain V A (r.take k).run (r'.take k).run ∧
      (r.take k).ended = (r'.take k).ended := by
  -- What a step leaves is related again, so the step lemma applies all the way.
  induction k generalizing r r' with
  | zero => exact ⟨.nil, h, rfl⟩
  | succ k ih =>
    rcases h.next? hcarries with ⟨hnone, hnone'⟩ | ⟨step, step', hnext, hnext', hitem, hrun⟩
    · rw [PrecisionRun.take, PrecisionRun.take, hnone, hnone']
      exact ⟨.nil, h, rfl⟩
    · obtain ⟨hitems, hlast, hended⟩ := ih hrun
      rw [PrecisionRun.take, PrecisionRun.take, hnext, hnext']
      exact ⟨.cons hitem hitems, hlast, hended⟩

end RunsRelated

/-! ## §3 Values that are accepted alike -/

omit [NaturalLog] [Std.Stream σ Float] [Std.Stream σ' Float] in
/-- Values accepted alike keep the counts equal. -/
theorem carries_count : Carries AcceptedAlike fun a b => a.count = b.count where
  alike := id
  single _ := rfl
  insert hab _ := congrArg (· + 1) hab

/-- Two estimates with the same count, half-width and confidence, or two refused values. -/
def AgreeUpToMean : Item → Item → Prop
  | .ok e, .ok e' => e.count = e'.count ∧ e.epsilon = e'.epsilon ∧ e.confidence = e'.confidence
  | .error (.nonFiniteValue _), .error (.nonFiniteValue _) => True
  | _, _ => False

omit [NaturalLog] [Std.Stream σ Float] [Std.Stream σ' Float] in
theorem ItemsRelated.agreeUpToMean {i i' : Item}
    (h : ItemsRelated AcceptedAlike (fun a b => a.count = b.count) i i') : AgreeUpToMean i i' := by
  cases h with
  | estimates hab epsilon confidence => exact ⟨hab, rfl, rfl⟩
  | refusals hvw => trivial

/-- **The values do not influence when a run stops**: for an aggregator over a declared domain, in
whatever state, take two sources that are finite at the same places. Then both runs take as many
values, end together, reach the target at the same step, and give estimates and refusals at the same
places, the estimates with the same count, half-width and confidence. -/
theorem stopping_ignores_values {f : Aggregator} (hdomain : f.strategy.domain? = some domain)
    {target : Float} (hfinite : target.isFinite = true) (hpositive : 0.0 < target) {source : σ}
    {source' : σ'} (halike : SourcesRelated AcceptedAlike source source') :
    ∃ (r : PrecisionRun σ) (r' : PrecisionRun σ'), PrecisionRun.start f target source = .ok r ∧
      PrecisionRun.start f target source' = .ok r' ∧ ∀ k,
        let s := r.take k
        let s' := r'.take k
        List.Forall₂ AgreeUpToMean s.items s'.items ∧ s.ended = s'.ended ∧
          s.run.reached = s'.run.reached ∧ s.items.length = s'.items.length ∧
          s.run.source = leftover s.items.length source ∧
          s'.run.source = leftover s'.items.length source' := by
  obtain ⟨goal, rfl, hstart⟩ := PrecisionRun.start_eq_ok f hfinite hpositive source
  refine ⟨_, _, hstart, PrecisionRun.start_of_checked f goal source', fun k => ?_⟩
  have hrelated : RunsRelated domain AcceptedAlike (fun a b => a.count = b.count)
      (⟨Estimator.ofAggregator f, goal, source⟩ : PrecisionRun σ)
      (⟨Estimator.ofAggregator f, goal, source'⟩ : PrecisionRun σ') :=
    ⟨.refl hdomain, .none, rfl, halike⟩
  obtain ⟨hitems, hlast, hended⟩ := hrelated.take carries_count k
  exact ⟨hitems.imp fun _ _ h => h.agreeUpToMean, hended, hlast.reached_eq, hitems.length_eq,
    PrecisionRun.source_take k _, PrecisionRun.source_take k _⟩

end Runs

/-- Values from `[0, 1]` and values from outside it, with a refused one before them: the half-width
is within 0.6 after two accepted values in both runs. -/
theorem stopping_ignores_values_outside :
    ∃ f r r', @Aggregator.conservative logAtFour 0.5 0.0 1.0 = .ok f ∧
      PrecisionRun.start f 0.6 [Numeric.nan, 0.25, 0.75, 0.5] = .ok r ∧
      PrecisionRun.start f 0.6 [Numeric.infinity, 7.0, -3.0, 1.0] = .ok r' ∧
      (@PrecisionRun.take _ logAtFour _ 5 r).items.length = 3 ∧
      (@PrecisionRun.take _ logAtFour _ 5 r').items.length = 3 := by
  have hstart := @Aggregator.conservative_of_checked logAtFour Aggregator.half Aggregator.unitDomain
  have halike : List.Forall₂ AcceptedAlike [Numeric.nan, 0.25, 0.75, 0.5]
      [Numeric.infinity, 7.0, -3.0, 1.0] := by decide
  obtain ⟨r, r', hr, hr', hruns⟩ := @stopping_ignores_values logAtFour _ _ Aggregator.unitDomain _ _
    ⟨Aggregator.half, .conservative Aggregator.unitDomain, 0, none, none⟩ rfl 0.6 (by decide)
    (by decide) _ _ (sourcesRelated_lists halike)
  obtain ⟨-, -, -, hlength, -⟩ := hruns 5
  have hthree : (@PrecisionRun.take _ logAtFour _ 5 r).items.length = 3 := by
    have hgoal := PrecisionRun.start_of_checked
      ⟨Aggregator.half, .conservative Aggregator.unitDomain, 0, none, none⟩
      ⟨0.6, by decide, by decide⟩ [Numeric.nan, 0.25, 0.75, 0.5]
    rw [← Except.ok.inj (hgoal.symm.trans hr)]
    decide +kernel
  exact ⟨_, r, r', hstart, hr, hr', hthree, hlength.symm.trans hthree⟩

end OnlineAggregation
