import OnlineAggregation.Proofs.Run.Report

/-!
# Runs over any source

A source may end or go on for ever, and values that are not finite may come between the others. A
run looks at its first values only. Main statements: a run takes one value for each item, and the
estimates among the items are as many as the finite values; if `n` accepted values bring the
half-width within the target whichever they are, a source that has `n` finite values among its first
`k` is never asked for more than these `k`, and no more than `n` of them are accepted.
-/

namespace OnlineAggregation

open Numeric (NaturalLog)
open RunReport (estimates estimates_cons)

/-! ## §1 The first values of a source -/

/-- The first `k` values of a source, or all of them if there are fewer. -/
def firstValues {σ : Type} [Std.Stream σ Float] : ℕ → σ → List Float
  | 0, _ => []
  | k + 1, source =>
    match Std.Stream.next? source with
    | some (v, rest) => v :: firstValues k rest
    | none => []

/-- Those of a list are its first elements. -/
theorem firstValues_list (k : ℕ) (vs : List Float) : firstValues k vs = vs.take k := by
  induction k generalizing vs with
  | zero => rfl
  | succ k ih =>
    cases vs with
    | nil => rfl
    | cons v vs => exact congrArg (v :: ·) (ih vs)

/-- What a source has left after its first `k` values. -/
def leftover {σ : Type} [Std.Stream σ Float] : ℕ → σ → σ
  | 0, source => source
  | k + 1, source =>
    match Std.Stream.next? source with
    | some (_, rest) => leftover k rest
    | none => source

theorem leftover_list (k : ℕ) (vs : List Float) : leftover k vs = vs.drop k := by
  induction k generalizing vs with
  | zero => rfl
  | succ k ih =>
    cases vs with
    | nil => rfl
    | cons v vs => exact ih vs

section Sources

variable {σ : Type} [Std.Stream σ Float] {source rest : σ} {v : Float}

theorem firstValues_of_some (h : Std.Stream.next? source = some (v, rest)) (k : ℕ) :
    firstValues (k + 1) source = v :: firstValues k rest := by
  simp [firstValues, h]

theorem firstValues_of_none (h : Std.Stream.next? source = (none : Option (Float × σ))) (k : ℕ) :
    firstValues k source = [] := by
  cases k with
  | zero => rfl
  | succ k => simp [firstValues, h]

theorem leftover_of_some (h : Std.Stream.next? source = some (v, rest)) (k : ℕ) :
    leftover (k + 1) source = leftover k rest := by
  simp [leftover, h]

theorem leftover_of_none (h : Std.Stream.next? source = (none : Option (Float × σ))) (k : ℕ) :
    leftover k source = source := by
  cases k with
  | zero => rfl
  | succ k => simp [leftover, h]

end Sources

/-! ## §2 Enough values -/

namespace Aggregator

variable [NaturalLog] {f : Aggregator} {target : Float}

/-- Any `n` accepted values bring the half-width within the target. -/
def Enough (f : Aggregator) (target : Float) (n : ℕ) : Prop :=
  ∀ vs : List Float, (vs.filter Float.isFinite).length = n →
    (f.afterValues vs).isWithin target = true

theorem Enough.isWithin (h : f.Enough target 0) : f.isWithin target = true :=
  h [] rfl

/-- A value that was taken is one of them if it is finite. -/
theorem Enough.afterCall {n : ℕ} {v : Float}
    (h : f.Enough target (n + ([v].filter Float.isFinite).length)) :
    (f.afterCall (none, v)).Enough target n := by
  intro vs hvs
  rw [← afterValues_cons]
  apply h
  rw [← List.singleton_append, List.filter_append, List.length_append, hvs, Nat.add_comm]

end Aggregator

namespace PrecisionRun

section Runs

variable [NaturalLog] {σ : Type}

/-! ## §3 One step -/

/-- A value goes to the aggregator as in any call, and there is an estimate if it is finite. -/
theorem accept_spec (r : PrecisionRun σ) (v : Float) (source : σ) :
    (r.accept v source).run.estimator.aggregator = r.estimator.aggregator.afterCall (none, v) ∧
      (r.accept v source).run.target = r.target ∧ (r.accept v source).run.source = source ∧
      (estimates [(r.accept v source).item]).length = ([v].filter Float.isFinite).length := by
  cases hv : v.isFinite with
  | true =>
    obtain ⟨hitem, hrun⟩ := r.accept_of_fold_ok (Aggregator.fold_of_finite _ _ hv) source
    rw [hitem, hrun, Aggregator.afterCall_of_finite _ none hv]
    simp [hv]
  | false =>
    obtain ⟨hitem, hrun⟩ := r.accept_of_fold_error (Aggregator.fold_of_not_finite _ _ hv) source
    rw [hitem, hrun, Aggregator.afterCall_of_not_finite _ none hv]
    simp [hv]

variable [Std.Stream σ Float]

/-- A run goes on exactly if the target is not reached and the source has a value. -/
theorem next?_cases (r : PrecisionRun σ) :
    (r.next? = none ∧
      (r.reached = true ∨ Std.Stream.next? r.source = (none : Option (Float × σ)))) ∨
    ∃ v rest, r.reached = false ∧ Std.Stream.next? r.source = some (v, rest) ∧
      r.next? = some (r.accept v rest) := by
  cases hreached : r.reached with
  | true => exact Or.inl ⟨next?_of_reached hreached, Or.inl rfl⟩
  | false =>
    cases hsource : (Std.Stream.next? r.source : Option (Float × σ)) with
    | none => exact Or.inl ⟨by simp [next?, hreached, hsource], Or.inr rfl⟩
    | some pulled =>
      obtain ⟨v, rest⟩ := pulled
      exact Or.inr ⟨v, rest, rfl, rfl, by simp [next?, hreached, hsource]⟩

/-! ## §4 Several steps -/

theorem take_of_next?_none {r : PrecisionRun σ} (h : r.next? = none) (k : ℕ) :
    (r.take k).items = [] ∧ (r.take k).run = r := by
  cases k with
  | zero => exact ⟨rfl, rfl⟩
  | succ k =>
    rw [take, h]
    exact ⟨rfl, rfl⟩

theorem take_of_next?_some {r : PrecisionRun σ} {step : Step σ} (h : r.next? = some step) (k : ℕ) :
    (r.take (k + 1)).items = step.item :: (step.run.take k).items ∧
      (r.take (k + 1)).run = (step.run.take k).run := by
  rw [take, h]
  exact ⟨rfl, rfl⟩

/-- What a run has left of its source is what comes after a value for each item. -/
theorem source_take (k : ℕ) (r : PrecisionRun σ) :
    (r.take k).run.source = leftover (r.take k).items.length r.source := by
  induction k generalizing r with
  | zero => rfl
  | succ k ih =>
    rcases r.next?_cases with ⟨hnone, -⟩ | ⟨v, rest, -, hsource, hnext⟩
    · obtain ⟨hitems, hrun⟩ := take_of_next?_none hnone (k + 1)
      rw [hitems, hrun]
      rfl
    · obtain ⟨hitems, hrun⟩ := take_of_next?_some hnext k
      obtain ⟨-, -, hrest, -⟩ := r.accept_spec v rest
      rw [hitems, hrun, ih, hrest, List.length_cons, leftover_of_some hsource]

/-- The aggregator has taken a value for each item, and those that were finite were accepted. -/
theorem take_spec (k : ℕ) (r : PrecisionRun σ) :
    let s := r.take k
    let taken := firstValues s.items.length r.source
    s.run.estimator.aggregator = r.estimator.aggregator.afterValues taken ∧
      (estimates s.items).length = (taken.filter Float.isFinite).length := by
  induction k generalizing r with
  | zero => exact ⟨rfl, rfl⟩
  | succ k ih =>
    rcases r.next?_cases with ⟨hnone, -⟩ | ⟨v, rest, -, hsource, hnext⟩
    · obtain ⟨hitems, hrun⟩ := take_of_next?_none hnone (k + 1)
      simp only [hitems, hrun]
      exact ⟨rfl, rfl⟩
    · obtain ⟨hitems, hrun⟩ := take_of_next?_some hnext k
      obtain ⟨haggregator, -, hrest, hestimate⟩ := r.accept_spec v rest
      obtain ⟨hstate, hcount⟩ := ih (r.accept v rest).run
      rw [hrest] at hstate hcount
      simp only [hitems, hrun, List.length_cons, firstValues_of_some hsource]
      constructor
      · rw [Aggregator.afterValues_cons, ← haggregator]
        exact hstate
      · rw [estimates_cons, List.length_append, hestimate, hcount, ← List.length_append,
          ← List.filter_append, List.singleton_append]

/-- **A run stops in time**: if any `n` accepted values bring the half-width within the target, a
run over a source with `n` finite values among its first `k` reaches it within `k` steps, and
accepts at most `n` values on the way. -/
theorem reached_of_supply {r : PrecisionRun σ} {n k : ℕ}
    (henough : r.estimator.aggregator.Enough r.target.value n)
    (hsupply : n ≤ ((firstValues k r.source).filter Float.isFinite).length) :
    (r.take k).run.reached = true ∧ (estimates (r.take k).items).length ≤ n := by
  -- With each step one of the `k` values is gone, and `n` counts those still to be accepted.
  induction k generalizing r n with
  | zero =>
    obtain rfl : n = 0 := Nat.le_zero.mp hsupply
    exact ⟨henough.isWithin, le_rfl⟩
  | succ k ih =>
    rcases r.next?_cases with ⟨hnone, hwhy⟩ | ⟨v, rest, hgo, hsource, hnext⟩
    · obtain ⟨hitems, hrun⟩ := take_of_next?_none hnone (k + 1)
      rw [hitems, hrun]
      refine ⟨?_, Nat.zero_le n⟩
      rcases hwhy with hreached | hend
      · exact hreached
      · -- A source without values has enough of them only if none is needed.
        rw [firstValues_of_none hend] at hsupply
        obtain rfl : n = 0 := Nat.le_zero.mp hsupply
        exact henough.isWithin
    · obtain ⟨hitems, hrun⟩ := take_of_next?_some hnext k
      obtain ⟨haggregator, htarget, hrest, hestimate⟩ := r.accept_spec v rest
      rw [firstValues_of_some hsource, ← List.singleton_append, List.filter_append,
        List.length_append] at hsupply
      -- The run goes on, so a value is still needed, and `v` is one if it is finite.
      have hneeded : n ≠ 0 := by
        rintro rfl
        have hreached : r.reached = true := henough.isWithin
        rw [hreached] at hgo
        cases hgo
      have hone : ([v].filter Float.isFinite).length ≤ n :=
        (List.length_filter_le _ _).trans (Nat.one_le_iff_ne_zero.mpr hneeded)
      obtain ⟨m, rfl⟩ := Nat.exists_eq_add_of_le' hone
      have henough' : (r.accept v rest).run.estimator.aggregator.Enough
          (r.accept v rest).run.target.value m := by
        rw [haggregator, htarget]
        exact henough.afterCall
      obtain ⟨hreached, hcount⟩ := ih henough' (by
        rw [hrest]
        omega)
      rw [hitems, hrun, estimates_cons, List.length_append, hestimate]
      exact ⟨hreached, by omega⟩

end Runs

end PrecisionRun

end OnlineAggregation
