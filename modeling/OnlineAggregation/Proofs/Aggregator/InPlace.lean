import OnlineAggregation.Proofs.Aggregator.History

/-!
# Folding in place

A caller who keeps an aggregator in a variable sees it change assignment by assignment, with a log
that grows on the way. Here a fold is written down in that order, so that a failure between two
assignments would leave half a change behind. Main statement: there is no such failure. A fold
fails for a value that is not finite and for no other reason, and then it has changed nothing.
-/

namespace OnlineAggregation

open Numeric (NaturalLog)
open Aggregator (Built Call acceptedValues)

/-- A variable that holds an aggregator, and the log. -/
structure Recorder where
  aggregator : Aggregator
  log : List Event

namespace Recorder

/-! ## §1 Changes that may fail -/

/-- A computation that may fail and keeps the changes it made before. -/
abbrev Change (α : Type) : Type :=
  ExceptT EstimationError (StateM Recorder) α

/-- Appends to the log. -/
def report (events : List Event) : Change Unit :=
  modify fun r => { r with log := r.log ++ events }

/-- Assigns to a field of the aggregator. -/
def assign (change : Aggregator → Aggregator) : Change Unit :=
  modify fun r => { r with aggregator := change r.aggregator }

section Running

variable (r : Recorder) {α β : Type}

/-- A failure keeps the changes made before it. -/
private theorem run_bind (x : Change α) (g : α → Change β) :
    (x >>= g).run.run r =
      match x.run.run r with
      | (.ok y, s) => (g y).run.run s
      | (.error cause, s) => (.error cause, s) := by
  change (match x.run.run r with
    | (y, s) => (ExceptT.bindCont g y).run s) = _
  rcases x.run.run r with ⟨_ | y, s⟩ <;> rfl

private theorem run_ofExcept (e : Except EstimationError α) :
    (MonadExcept.ofExcept e : Change α).run.run r = (e, r) := by
  cases e <;> rfl

private theorem run_get : (get : Change Recorder).run.run r = (.ok r, r) :=
  rfl

private theorem run_report (events : List Event) :
    (report events).run.run r = (.ok (), { r with log := r.log ++ events }) :=
  rfl

private theorem run_assign (change : Aggregator → Aggregator) :
    (assign change).run.run r = (.ok (), { r with aggregator := change r.aggregator }) :=
  rfl

private theorem run_pure (y : α) : (pure y : Change α).run.run r = (.ok y, r) :=
  rfl

end Running

/-! ## §2 Folding -/

section Folding

variable [NaturalLog]

/-- Folds `v` into `a`, or into a new accumulator: first what can fail, then the warning, then the
assignments one by one. -/
def foldInPlace (a : Option (Accumulator Float)) (v : Float) : Change (Accumulator Float) := do
  let next ← MonadExcept.ofExcept (Accumulator.extend a v)
  let f := (← get).aggregator
  let observations := f.observations + 1
  let observed := f.observedWith v
  let epsilon? ← MonadExcept.ofExcept (f.refreshed observations observed)
  report (f.domainEvents v)
  assign fun g => { g with observations }
  assign fun g => { g with observed := some observed }
  assign fun g => { g with epsilon? }
  report [.folded observations v next.mean epsilon?]
  return next

/-- In place or not, a fold is the same. -/
theorem run_foldInPlace (r : Recorder) (a : Option (Accumulator Float)) (v : Float) :
    (foldInPlace a v).run.run r =
      match r.aggregator.fold a v with
      | .ok next => (.ok next.accumulator, ⟨next.aggregator, r.log ++ next.events⟩)
      | .error cause => (.error cause, r) := by
  unfold foldInPlace Aggregator.fold
  rw [run_bind, run_ofExcept]
  cases hnext : Accumulator.extend a v with
  | error cause => rfl
  | ok next =>
    simp only [run_bind, run_get, run_ofExcept]
    cases hrefreshed : r.aggregator.refreshed (r.aggregator.observations + 1)
        (r.aggregator.observedWith v) with
    | error cause =>
      simp only [bind, Except.bind]
    | ok epsilon? =>
      -- From here on nothing can fail.
      simp only [run_report, run_assign, run_pure]
      simp only [bind, Except.bind, pure, Except.pure, List.append_assoc]

/-- A finite value is accepted, and all assignments are made. -/
theorem run_foldInPlace_of_finite (r : Recorder) (a : Option (Accumulator Float)) {v : Float}
    (hv : v.isFinite = true) :
    (foldInPlace a v).run.run r =
      (.ok (a.elim (.single v) (·.insert v)),
        { aggregator := r.aggregator.withValue v
          log := r.log ++ (r.aggregator.domainEvents v ++
            [.folded (r.aggregator.observations + 1) v
              (a.elim (.single v) (·.insert v) : Accumulator Float).mean
              (r.aggregator.withValue v).epsilon?]) }) := by
  rw [run_foldInPlace, r.aggregator.fold_of_finite a hv]

/-- Any other value is named, and no assignment is made. -/
theorem run_foldInPlace_of_not_finite (r : Recorder) (a : Option (Accumulator Float)) {v : Float}
    (hv : v.isFinite = false) :
    (foldInPlace a v).run.run r = (.error (.nonFiniteValue v), r) := by
  rw [run_foldInPlace, r.aggregator.fold_of_not_finite a hv]

/-- The variable after several calls. -/
def afterCalls (r : Recorder) (calls : List Call) : Recorder :=
  calls.foldl (fun s c => ((foldInPlace c.1 c.2).run.run s).2) r

theorem aggregator_afterCalls (r : Recorder) (calls : List Call) :
    (r.afterCalls calls).aggregator = r.aggregator.afterCalls calls := by
  induction calls generalizing r with
  | nil => rfl
  | cons c calls ih =>
    have hcall : ((foldInPlace c.1 c.2).run.run r).2.aggregator = r.aggregator.afterCall c := by
      rw [run_foldInPlace, Aggregator.afterCall]
      cases r.aggregator.fold c.1 c.2 <;> rfl
    change (afterCalls _ calls).aggregator = Aggregator.afterCalls _ calls
    rw [ih, hcall]

/-! ## §3 All or nothing -/

private theorem observations_afterCalls_le {f₀ : Aggregator} (hbuilt : Built f₀)
    (calls : List Call) : (f₀.afterCalls calls).observations ≤ calls.length := by
  rw [(hbuilt.remembers calls).observations_eq]
  calc (acceptedValues calls).length ≤ (calls.map Prod.snd).length := List.length_filter_le _ _
    _ = calls.length := List.length_map _

/-- **A fold is all or nothing**: whatever was called before and with whatever accumulators, it
fails exactly for a value that is NaN or infinite, names that value, and leaves the aggregator and
the log as they were. Else it counts one value more, keeps confidence and strategy, and neither
counter leaves 64 bits. The strategy, which is asked when the accumulator is already computed,
never fails. -/
theorem foldInPlace_all_or_nothing {f₀ : Aggregator} (hbuilt : Built f₀) (log : List Event)
    (calls : List Call) (hcalls : calls.length < 2 ^ 64 - 1) (a : Option (Accumulator Float))
    (hcount : ∀ acc, a = some acc → acc.count < 2 ^ 64 - 1) (v : Float) :
    let r := afterCalls ⟨f₀, log⟩ calls
    let outcome := (foldInPlace a v).run.run r
    ((∃ cause, outcome.1 = .error cause) ↔ v.isNaN = true ∨ v.isInf = true) ∧
    (∀ cause, outcome.1 = .error cause → cause = .nonFiniteValue v ∧ outcome.2 = r) ∧
    (v.isFinite = true → ∃ next, outcome.1 = .ok next ∧
      outcome.2.aggregator.observations = r.aggregator.observations + 1 ∧
      outcome.2.aggregator.confidence = r.aggregator.confidence ∧
      outcome.2.aggregator.strategy = r.aggregator.strategy ∧
      outcome.2.aggregator.observations < 2 ^ 64 ∧ next.count < 2 ^ 64) ∧
    (∃ epsilon?, r.aggregator.refreshed (r.aggregator.observations + 1)
      (r.aggregator.observedWith v) = .ok epsilon?) := by
  intro r outcome
  rw [← Binary64.isFinite_eq_false_iff]
  have hrefreshed : ∃ epsilon?, r.aggregator.refreshed (r.aggregator.observations + 1)
      (r.aggregator.observedWith v) = .ok epsilon? :=
    ⟨_, r.aggregator.refreshed_eq_ok (Nat.succ_ne_zero _) _⟩
  cases hv : v.isFinite with
  | false =>
    have houtcome : outcome = (.error (.nonFiniteValue v), r) := run_foldInPlace_of_not_finite r a hv
    rw [houtcome]
    refine ⟨iff_of_true ⟨_, rfl⟩ rfl, ?_, fun h => absurd h Bool.false_ne_true, hrefreshed⟩
    intro cause h
    cases h
    exact ⟨rfl, rfl⟩
  | true =>
    have houtcome := run_foldInPlace_of_finite r a hv
    rw [show outcome = _ from houtcome]
    refine ⟨iff_of_false ?_ (by simp), ?_,
      fun _ => ⟨_, rfl, rfl, rfl, rfl, ?_, ?_⟩, hrefreshed⟩
    · rintro ⟨cause, h⟩
      cases h
    · intro cause h
      cases h
    · -- No call counts more than one value.
      have hseen : r.aggregator.observations ≤ calls.length := by
        rw [aggregator_afterCalls]
        exact observations_afterCalls_le hbuilt calls
      change r.aggregator.observations + 1 < 2 ^ 64
      omega
    · cases a with
      | none => exact Nat.one_lt_two_pow (by norm_num)
      | some acc =>
        have hacc := hcount acc rfl
        change acc.count + 1 < 2 ^ 64
        omega

end Folding

/-- After one observation a NaN is refused, and the variable is as it was. -/
theorem foldInPlace_all_or_nothing_nan :
    let r := afterCalls ⟨⟨Aggregator.half, .largeSample none, 0, none, none⟩, []⟩ [(none, 2.0)]
    ((foldInPlace (some (.single 2.0)) Numeric.nan).run.run r).2 = r := by
  intro r
  have hcount : ∀ acc : Accumulator Float, some (.single 2.0) = some acc →
      acc.count < 2 ^ 64 - 1 := by
    rintro acc h
    cases h
    change 1 < 2 ^ 64 - 1
    norm_num
  obtain ⟨hiff, herror, -⟩ := foldInPlace_all_or_nothing (.largeSample Aggregator.largeSample_half)
    [] [(none, 2.0)] (by norm_num) (some (.single 2.0)) hcount Numeric.nan
  obtain ⟨cause, hcause⟩ := hiff.mpr (Or.inl Numeric.isNaN_nan)
  exact (herror cause hcause).2

end Recorder

end OnlineAggregation
