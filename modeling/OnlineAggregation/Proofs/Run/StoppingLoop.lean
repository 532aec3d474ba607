import OnlineAggregation.Proofs.Aggregator.History
import OnlineAggregation.Proofs.Binary64.Arithmetic
import OnlineAggregation.Run.PrecisionRun

/-!
# Runs as loops

A run to a precision is made step by step, with the stopping test before a value is taken and the
item assembled after it. Over a list it can be written as one loop. Main statement: both give the
same items, pull the same values and end in the same state; what a caller may rely on in every run
then follows by induction on the list.
-/

namespace OnlineAggregation

open Numeric (NaturalLog)

/-! ## §1 The loop -/

/-- Whether the half-width is known and within the target. -/
def Aggregator.isWithin (f : Aggregator) (target : Float) : Bool :=
  match f.epsilon with
  | .ok e => e ≤ target
  | .error _ => false

/-- What is emitted for an accepted value: an absent half-width counts as infinite. -/
def Aggregator.emitted (f : Aggregator) (a : Accumulator Float) : Estimate :=
  { count := a.count
    mean := a.mean
    epsilon :=
      match f.epsilon with
      | .ok e => e
      | .error _ => Numeric.infinity
    confidence := f.confidence.value }

/-- What is left of a loop: its items, its state, and the values it did not take. -/
structure LoopEnd where
  items : List Item
  aggregator : Aggregator
  accumulator? : Option (Accumulator Float)
  rest : List Float

/-- Before each value: stop if the half-width is within the target. Else take the value and fold
it; emit the new estimate, or name the value and go on as before. -/
def stoppingLoop [NaturalLog] (target : Float) :
    Aggregator → Option (Accumulator Float) → List Float → LoopEnd
  | f, a, [] => { items := [], aggregator := f, accumulator? := a, rest := [] }
  | f, a, v :: vs =>
    if f.isWithin target then
      { items := [], aggregator := f, accumulator? := a, rest := v :: vs }
    else
      match f.fold a v with
      | .ok next =>
        let later := stoppingLoop target next.aggregator (some next.accumulator) vs
        { later with items := .ok (next.aggregator.emitted next.accumulator) :: later.items }
      | .error _ =>
        let later := stoppingLoop target f a vs
        { later with items := .error (.nonFiniteValue v) :: later.items }

section Equations

variable [NaturalLog] {target : Float} {f : Aggregator} {a : Option (Accumulator Float)} {v : Float}
  {vs : List Float}

theorem stoppingLoop_of_within (hwithin : f.isWithin target = true) :
    stoppingLoop target f a (v :: vs) = ⟨[], f, a, v :: vs⟩ :=
  if_pos hwithin

theorem stoppingLoop_of_ok {next : Aggregator.Folded} (hwithin : ¬ f.isWithin target = true)
    (hfold : f.fold a v = .ok next) :
    stoppingLoop target f a (v :: vs) =
      { stoppingLoop target next.aggregator (some next.accumulator) vs with
        items := .ok (next.aggregator.emitted next.accumulator) ::
          (stoppingLoop target next.aggregator (some next.accumulator) vs).items } := by
  rw [stoppingLoop, if_neg hwithin, hfold]

theorem stoppingLoop_of_error {cause : EstimationError} (hwithin : ¬ f.isWithin target = true)
    (hfold : f.fold a v = .error cause) :
    stoppingLoop target f a (v :: vs) =
      { stoppingLoop target f a vs with
        items := .error (.nonFiniteValue v) :: (stoppingLoop target f a vs).items } := by
  rw [stoppingLoop, if_neg hwithin, hfold]

/-- What holds of a loop follows from the four things that can happen at its head. -/
theorem stoppingLoop_induction {motive : Aggregator → Option (Accumulator Float) → List Float → Prop}
    (exhausted : ∀ f a, motive f a [])
    (within : ∀ f a v vs, f.isWithin target = true → motive f a (v :: vs))
    (accepted : ∀ f a v vs next, ¬ f.isWithin target = true → f.fold a v = .ok next →
      motive next.aggregator (some next.accumulator) vs → motive f a (v :: vs))
    (refused : ∀ f a v vs cause, ¬ f.isWithin target = true → f.fold a v = .error cause →
      motive f a vs → motive f a (v :: vs))
    (f : Aggregator) (a : Option (Accumulator Float)) (vs : List Float) : motive f a vs := by
  induction vs generalizing f a with
  | nil => exact exhausted f a
  | cons v vs ih =>
    by_cases hwithin : f.isWithin target = true
    · exact within f a v vs hwithin
    · cases hfold : f.fold a v with
      | ok next => exact accepted f a v vs next hwithin hfold (ih next.aggregator _)
      | error cause => exact refused f a v vs cause hwithin hfold (ih f a)

end Equations

namespace PrecisionRun

/-! ## §2 A run is the loop -/

theorem reached_eq {σ : Type} (r : PrecisionRun σ) :
    r.reached = r.estimator.aggregator.isWithin r.target.value :=
  rfl

theorem itemOf_some (f : Aggregator) (a : Accumulator Float) :
    itemOf { aggregator := f, accumulator? := some a } = .ok (f.emitted a) := by
  unfold itemOf Estimator.estimateOrUnbounded Aggregator.emitted Aggregator.epsilon
  cases f.epsilon? <;> rfl

section Steps

variable [NaturalLog] {σ : Type}

/-- An accepted value is emitted as an estimate. -/
theorem accept_of_fold_ok (r : PrecisionRun σ) {v : Float} {next : Aggregator.Folded}
    (hfold : r.estimator.aggregator.fold r.estimator.accumulator? v = .ok next) (source : σ) :
    (r.accept v source).item = .ok (next.aggregator.emitted next.accumulator) ∧
      (r.accept v source).run =
        ⟨⟨next.aggregator, some next.accumulator⟩, r.target, source⟩ := by
  have hadd : r.estimator.add v = .ok (⟨next.aggregator, some next.accumulator⟩, next.events) := by
    rw [Estimator.add, hfold]
    rfl
  rw [accept, hadd]
  exact ⟨itemOf_some _ _, rfl⟩

/-- A refused value is named, and only the source has moved. -/
theorem accept_of_fold_error (r : PrecisionRun σ) {v : Float} {cause : EstimationError}
    (hfold : r.estimator.aggregator.fold r.estimator.accumulator? v = .error cause) (source : σ) :
    (r.accept v source).item = .error (.nonFiniteValue v) ∧
      (r.accept v source).run = ⟨r.estimator, r.target, source⟩ := by
  obtain ⟨-, hcause⟩ := Aggregator.fold_eq_error hfold
  have hadd : r.estimator.add v = .error cause := by
    rw [Estimator.add, hfold]
    rfl
  rw [accept, hadd, hcause]
  exact ⟨rfl, rfl⟩

theorem next?_cons {f : Aggregator} {a : Option (Accumulator Float)} {target : TargetPrecision}
    {v : Float} {vs : List Float} (hwithin : ¬ f.isWithin target.value = true) :
    (⟨⟨f, a⟩, target, v :: vs⟩ : PrecisionRun (List Float)).next? =
      some (accept ⟨⟨f, a⟩, target, v :: vs⟩ v vs) := by
  unfold next?
  exact if_neg hwithin

/-- Steps taken until there is none are the loop from the same state. -/
theorem take_eq_stoppingLoop (r : PrecisionRun (List Float)) {limit : Nat}
    (hlimit : r.source.length < limit) :
    let loop := stoppingLoop r.target.value r.estimator.aggregator r.estimator.accumulator? r.source
    (r.take limit).items = loop.items ∧
      (r.take limit).run = ⟨⟨loop.aggregator, loop.accumulator?⟩, r.target, loop.rest⟩ ∧
      (r.take limit).ended = true := by
  obtain ⟨⟨f, a⟩, target, source⟩ := r
  -- The limit stays above what is left of the list, so the run always sees its own end.
  induction f, a, source using @stoppingLoop_induction _ target.value generalizing limit with
  | exhausted f a =>
    obtain ⟨n, rfl⟩ := Nat.exists_eq_add_of_lt hlimit
    have hnone : (⟨⟨f, a⟩, target, []⟩ : PrecisionRun (List Float)).next? = none := by
      unfold next?
      split <;> rfl
    rw [take, hnone]
    exact ⟨rfl, rfl, rfl⟩
  | within f a v vs hwithin =>
    obtain ⟨n, rfl⟩ := Nat.exists_eq_add_of_lt hlimit
    have hnone : (⟨⟨f, a⟩, target, v :: vs⟩ : PrecisionRun (List Float)).next? = none :=
      next?_of_reached hwithin
    rw [take, hnone]
    intro loop
    have hloop : loop = ⟨[], f, a, v :: vs⟩ := stoppingLoop_of_within hwithin
    rw [hloop]
    exact ⟨rfl, rfl, rfl⟩
  | accepted f a v vs next hwithin hfold ih =>
    obtain ⟨n, rfl⟩ := Nat.exists_eq_add_of_lt hlimit
    obtain ⟨hitem, hrun⟩ := accept_of_fold_ok ⟨⟨f, a⟩, target, v :: vs⟩ hfold vs
    obtain ⟨hitems, hend, hended⟩ := @ih ((v :: vs).length + n) (by simp; omega)
    rw [take, next?_cons hwithin]
    simp only [hitem, hrun, stoppingLoop_of_ok hwithin hfold]
    exact ⟨congrArg _ hitems, hend, hended⟩
  | refused f a v vs cause hwithin hfold ih =>
    obtain ⟨n, rfl⟩ := Nat.exists_eq_add_of_lt hlimit
    obtain ⟨hitem, hrun⟩ := accept_of_fold_error ⟨⟨f, a⟩, target, v :: vs⟩ hfold vs
    obtain ⟨hitems, hend, hended⟩ := @ih ((v :: vs).length + n) (by simp; omega)
    rw [take, next?_cons hwithin]
    simp only [hitem, hrun, stoppingLoop_of_error hwithin hfold]
    exact ⟨congrArg _ hitems, hend, hended⟩

end Steps

end PrecisionRun

/-! ## §3 What every loop does -/

section Loop

variable [NaturalLog] (target : Float)

/-- One value is taken for each item, and the others are left. -/
theorem rest_stoppingLoop (f : Aggregator) (a : Option (Accumulator Float)) (vs : List Float) :
    (stoppingLoop target f a vs).items.length ≤ vs.length ∧
      (stoppingLoop target f a vs).rest = vs.drop (stoppingLoop target f a vs).items.length := by
  induction f, a, vs using @stoppingLoop_induction _ target with
  | exhausted f a => exact ⟨le_rfl, rfl⟩
  | within f a v vs hwithin =>
    rw [stoppingLoop_of_within hwithin]
    exact ⟨Nat.zero_le _, rfl⟩
  | accepted f a v vs next hwithin hfold ih =>
    rw [stoppingLoop_of_ok hwithin hfold]
    exact ⟨Nat.succ_le_succ ih.1, ih.2⟩
  | refused f a v vs cause hwithin hfold ih =>
    rw [stoppingLoop_of_error hwithin hfold]
    exact ⟨Nat.succ_le_succ ih.1, ih.2⟩

/-- The first items need the first values only. -/
theorem take_items_stoppingLoop (f : Aggregator) (a : Option (Accumulator Float))
    (vs : List Float) (k : ℕ) :
    (stoppingLoop target f a vs).items.take k = (stoppingLoop target f a (vs.take k)).items := by
  -- The state is the same on both sides, so both stop at the same place or not at all.
  induction f, a, vs using @stoppingLoop_induction _ target generalizing k with
  | exhausted f a => simp [stoppingLoop]
  | within f a v vs hwithin =>
    cases k with
    | zero => simp [stoppingLoop]
    | succ k =>
      rw [List.take_succ_cons, stoppingLoop_of_within hwithin, stoppingLoop_of_within hwithin]
      rfl
  | accepted f a v vs next hwithin hfold ih =>
    cases k with
    | zero => simp [stoppingLoop]
    | succ k =>
      rw [List.take_succ_cons, stoppingLoop_of_ok hwithin hfold, stoppingLoop_of_ok hwithin hfold]
      exact congrArg _ (ih k)
  | refused f a v vs cause hwithin hfold ih =>
    cases k with
    | zero => simp [stoppingLoop]
    | succ k =>
      rw [List.take_succ_cons, stoppingLoop_of_error hwithin hfold,
        stoppingLoop_of_error hwithin hfold]
      exact congrArg _ (ih k)

/-- Every item is an estimate or names a value. -/
theorem noObservations_not_mem_stoppingLoop (f : Aggregator) (a : Option (Accumulator Float))
    (vs : List Float) : .error .noObservations ∉ (stoppingLoop target f a vs).items := by
  induction f, a, vs using @stoppingLoop_induction _ target with
  | exhausted f a => exact List.not_mem_nil
  | within f a v vs hwithin =>
    rw [stoppingLoop_of_within hwithin]
    exact List.not_mem_nil
  | accepted f a v vs next hwithin hfold ih =>
    rw [stoppingLoop_of_ok hwithin hfold]
    exact List.not_mem_cons_of_ne_of_not_mem (by simp) ih
  | refused f a v vs cause hwithin hfold ih =>
    rw [stoppingLoop_of_error hwithin hfold]
    exact List.not_mem_cons_of_ne_of_not_mem (by simp) ih

/-- A loop that leaves values has met its target. -/
theorem isWithin_of_rest_ne_nil (f : Aggregator) (a : Option (Accumulator Float))
    (vs : List Float) (hrest : (stoppingLoop target f a vs).rest ≠ []) :
    (stoppingLoop target f a vs).aggregator.isWithin target = true := by
  induction f, a, vs using @stoppingLoop_induction _ target with
  | exhausted f a => exact absurd rfl hrest
  | within f a v vs hwithin =>
    rw [stoppingLoop_of_within hwithin]
    exact hwithin
  | accepted f a v vs next hwithin hfold ih =>
    rw [stoppingLoop_of_ok hwithin hfold] at hrest ⊢
    exact ih hrest
  | refused f a v vs cause hwithin hfold ih =>
    rw [stoppingLoop_of_error hwithin hfold] at hrest ⊢
    exact ih hrest

omit [NaturalLog] in
private theorem not_infinity_le {target : Float} (hfinite : target.isFinite = true) :
    ¬ Numeric.infinity ≤ target := by
  obtain ⟨t, ht⟩ := Binary64.isFinite_iff_exists_reads.mp hfinite
  have hinfinity : Binary64.Reads Numeric.infinity ⊤ := ⟨rfl, rfl⟩
  rw [hinfinity.le_iff ht, not_le]
  exact EReal.coe_lt_top t

omit [NaturalLog] in
/-- An estimate within a finite target has a half-width, and the aggregator is there. -/
theorem isWithin_of_emitted {f : Aggregator} {acc : Accumulator Float} {target : Float}
    (hfinite : target.isFinite = true) (hwithin : (f.emitted acc).epsilon ≤ target) :
    f.isWithin target = true := by
  unfold Aggregator.emitted at hwithin
  unfold Aggregator.isWithin
  cases hepsilon : f.epsilon with
  | ok e =>
    rw [hepsilon] at hwithin
    exact decide_eq_true hwithin
  | error cause =>
    -- The infinite half-width of the item is above every finite target.
    rw [hepsilon] at hwithin
    exact absurd hwithin (not_infinity_le hfinite)

variable {target}

theorem stoppingLoop_items_of_isWithin {f : Aggregator} (hwithin : f.isWithin target = true)
    (a : Option (Accumulator Float)) (vs : List Float) :
    (stoppingLoop target f a vs).items = [] := by
  cases vs with
  | nil => rfl
  | cons v vs => rw [stoppingLoop_of_within hwithin]

/-- Nothing is emitted after an estimate within the target. -/
theorem length_of_emitted_within (hfinite : target.isFinite = true) (f : Aggregator)
    (a : Option (Accumulator Float)) (vs : List Float) {i : ℕ} {estimate : Estimate}
    (hitem : (stoppingLoop target f a vs).items[i]? = some (.ok estimate))
    (hwithin : estimate.epsilon ≤ target) :
    i + 1 = (stoppingLoop target f a vs).items.length := by
  induction f, a, vs using @stoppingLoop_induction _ target generalizing i with
  | exhausted f a => simp [stoppingLoop] at hitem
  | within f a v vs hstop =>
    rw [stoppingLoop_of_within hstop] at hitem
    simp at hitem
  | accepted f a v vs next hgo hfold ih =>
    rw [stoppingLoop_of_ok hgo hfold] at hitem ⊢
    cases i with
    | zero =>
      -- The item shows the half-width that the next test looks at.
      obtain rfl : next.aggregator.emitted next.accumulator = estimate := by simpa using hitem
      have hnext := isWithin_of_emitted hfinite hwithin
      rw [stoppingLoop_items_of_isWithin hnext]
      rfl
    | succ i => exact congrArg Nat.succ (ih hitem)
  | refused f a v vs cause hgo hfold ih =>
    rw [stoppingLoop_of_error hgo hfold] at hitem ⊢
    cases i with
    | zero => simp at hitem
    | succ i => exact congrArg Nat.succ (ih hitem)

end Loop

/-! ## §4 Whole runs -/

namespace PrecisionRun

section Sources

variable {σ : Type}

/-- With a checked target a run can be set up over any source. -/
theorem start_of_checked (f : Aggregator) (goal : TargetPrecision) (source : σ) :
    PrecisionRun.start f goal.value source = .ok ⟨Estimator.ofAggregator f, goal, source⟩ := by
  rw [PrecisionRun.start, TargetPrecision.check_value]
  rfl

theorem start_eq_ok (f : Aggregator) {target : Float} (hfinite : target.isFinite = true)
    (hpositive : 0.0 < target) (source : σ) :
    ∃ t : TargetPrecision, t.value = target ∧
      PrecisionRun.start f target source = .ok ⟨Estimator.ofAggregator f, t, source⟩ := by
  have hnot : ¬ target ≤ 0.0 := by
    obtain ⟨t, ht⟩ := Binary64.isFinite_iff_exists_reads.mp hfinite
    rw [Binary64.reads_zero.lt_iff ht] at hpositive
    rw [ht.le_iff Binary64.reads_zero]
    exact not_le.mpr hpositive
  exact ⟨⟨target, hfinite, hnot⟩, rfl, start_of_checked f ⟨target, hfinite, hnot⟩ source⟩

/-- A run within its target gives nothing more and takes nothing more. -/
theorem take_of_reached [NaturalLog] [Std.Stream σ Float] {r : PrecisionRun σ}
    (h : r.reached = true) (n : ℕ) : (r.take n).items = [] ∧ (r.take n).run = r := by
  cases n with
  | zero => exact ⟨rfl, rfl⟩
  | succ n =>
    rw [take, next?_of_reached h]
    exact ⟨rfl, rfl⟩

end Sources

section Lists

variable [NaturalLog]

/-- **A run is the plain stopping loop**, for every aggregator in whatever state, every finite
positive target and every list. Its items are those of the loop, and it ends in the same state and
at the same place. So it takes a value for each item; its first `k` items need the first `k` values
only; it never answers that there are no observations; an item within the target is the last; if
the target is not reached the list is used up; and a run that has reached it neither gives an item
nor takes a value any more. -/
theorem complete_eq_stoppingLoop (f : Aggregator) {target : Float}
    (hfinite : target.isFinite = true) (hpositive : 0.0 < target) (xs : List Float) :
    ∃ r : PrecisionRun (List Float), PrecisionRun.start f target xs = .ok r ∧
      let s := r.complete xs.length
      let loop := stoppingLoop target f none xs
      (s.items = loop.items ∧ s.ended = true ∧
        s.run.estimator = ⟨loop.aggregator, loop.accumulator?⟩ ∧ s.run.source = loop.rest) ∧
      (s.items.length ≤ xs.length ∧ s.run.source = xs.drop s.items.length) ∧
      (∀ (k : ℕ) (ys : List Float), ys.take k = xs.take k →
        (PrecisionRun.complete ys.length { r with source := ys }).items.take k =
          s.items.take k) ∧
      .error .noObservations ∉ s.items ∧
      (∀ i estimate, s.items[i]? = some (.ok estimate) → estimate.epsilon ≤ target →
        i + 1 = s.items.length) ∧
      (s.run.reached = false → s.run.source = []) ∧
      (∀ m n, (r.take m).run.reached = true →
        ((r.take m).run.take n).items = [] ∧ ((r.take m).run.take n).run = (r.take m).run) := by
  obtain ⟨t, rfl, hstart⟩ := start_eq_ok f hfinite hpositive xs
  refine ⟨_, hstart, ?_⟩
  intro s loop
  obtain ⟨hitems, hrun, hended⟩ := take_eq_stoppingLoop
    (⟨Estimator.ofAggregator f, t, xs⟩ : PrecisionRun (List Float)) (Nat.lt_succ_self xs.length)
  have hitems : s.items = loop.items := hitems
  have hrun : s.run = ⟨⟨loop.aggregator, loop.accumulator?⟩, t, loop.rest⟩ := hrun
  refine ⟨⟨hitems, hended, ?_, ?_⟩, ?_, ?_, ?_, ?_, ?_, ?_⟩
  · rw [hrun]
  · rw [hrun]
  · -- A value for each item.
    rw [hitems, hrun]
    exact rest_stoppingLoop t.value f none xs
  · -- Both runs give the items of the loop over the common first values.
    intro k ys hfirst
    obtain ⟨hitems', -, -⟩ := take_eq_stoppingLoop
      (⟨Estimator.ofAggregator f, t, ys⟩ : PrecisionRun (List Float)) (Nat.lt_succ_self ys.length)
    rw [hitems]
    refine (congrArg (List.take k) hitems').trans ?_
    exact (take_items_stoppingLoop t.value f none ys k).trans
      (hfirst ▸ (take_items_stoppingLoop t.value f none xs k).symm)
  · rw [hitems]
    exact noObservations_not_mem_stoppingLoop t.value f none xs
  · intro i estimate hitem hwithin
    rw [hitems] at hitem ⊢
    exact length_of_emitted_within t.finite f none xs hitem hwithin
  · -- A list that is not used up was left because the target was met.
    intro hnot
    rw [hrun] at hnot ⊢
    by_contra hrest
    have hwithin : loop.aggregator.isWithin t.value = true :=
      isWithin_of_rest_ne_nil t.value f none xs hrest
    rw [reached_eq, hwithin] at hnot
    cases hnot
  · intro m n hreached
    exact take_of_reached hreached n

end Lists

theorem complete_eq_stoppingLoop_half :
    ∃ r, PrecisionRun.start ⟨Aggregator.half, .largeSample none, 0, none, none⟩ 0.5
        [1.0, Numeric.nan] = .ok r ∧
      (r.complete 2).items = (stoppingLoop 0.5 ⟨Aggregator.half, .largeSample none, 0, none, none⟩
        none [1.0, Numeric.nan]).items := by
  obtain ⟨r, hstart, ⟨hitems, -⟩, -⟩ := @complete_eq_stoppingLoop _
    ⟨Aggregator.half, .largeSample none, 0, none, none⟩ 0.5 (by decide)
    (by decide) [1.0, Numeric.nan]
  exact ⟨r, hstart, hitems⟩

end PrecisionRun

end OnlineAggregation
