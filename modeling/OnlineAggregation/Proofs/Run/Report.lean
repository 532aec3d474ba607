import OnlineAggregation.Proofs.Run.StoppingLoop
import OnlineAggregation.Run.Traced

/-!
# What a report keeps of a run

An estimate is emitted right after a value was accepted. Main statements: each estimate of a run is
that of the state after some first part of the source, with the accumulator of the values accepted
from it; and the trace in the report has the estimates that are due, in the order of the run, and the
last one.
-/

namespace OnlineAggregation

open Numeric (NaturalLog)

/-! ## §1 Estimates and states -/

namespace Accumulator

/-- An accumulator with more values, or that of these values. -/
def extended (a : Option (Accumulator Float)) (ys : List Float) : Option (Accumulator Float) :=
  ys.foldl (fun a y => some (a.elim (.single y) (·.insert y))) a

theorem extended_some (a : Accumulator Float) (ys : List Float) :
    extended (some a) ys = some (ys.foldl insert a) := by
  induction ys generalizing a with
  | nil => rfl
  | cons y ys ih => exact ih (a.insert y)

/-- From no accumulator comes that of the values. -/
theorem extended_none_cons (y : Float) (ys : List Float) :
    extended none (y :: ys) = some (ofValues y ys) :=
  extended_some (single y) ys

end Accumulator

namespace Aggregator

variable [NaturalLog]

/-- The aggregator after the values of a source. -/
def afterValues (f : Aggregator) (vs : List Float) : Aggregator :=
  f.afterCalls (vs.map (none, ·))

omit [NaturalLog] in
theorem acceptedValues_map (vs : List Float) :
    acceptedValues (vs.map (none, ·)) = vs.filter Float.isFinite := by
  simp [acceptedValues]

theorem afterValues_cons (f : Aggregator) (v : Float) (vs : List Float) :
    f.afterValues (v :: vs) = (f.afterCall (none, v)).afterValues vs :=
  rfl

theorem afterValues_append_singleton (f : Aggregator) (vs : List Float) (v : Float) :
    f.afterValues (vs ++ [v]) = (f.afterValues vs).afterCall (none, v) := by
  simp [afterValues, afterCalls]

end Aggregator

/-- An estimate of the state after the first of the values `vs`, up to an accepted one. -/
def IsEmitted [NaturalLog] (f : Aggregator) (a : Option (Accumulator Float)) (vs : List Float)
    (e : Estimate) : Prop :=
  ∃ us v ws acc, vs = us ++ v :: ws ∧ v.isFinite = true ∧
    Accumulator.extended a ((us ++ [v]).filter Float.isFinite) = some acc ∧
      e = (f.afterValues (us ++ [v])).emitted acc

section Emitted

variable [NaturalLog] {target : Float} {f : Aggregator} {a : Option (Accumulator Float)} {v : Float}
  {vs : List Float} {e : Estimate}

theorem isEmitted_head (hv : v.isFinite = true) :
    IsEmitted f a (v :: vs) ((f.withValue v).emitted (a.elim (.single v) (·.insert v))) := by
  refine ⟨[], v, vs, a.elim (.single v) (·.insert v), rfl, hv, ?_, ?_⟩
  · rw [List.nil_append, List.filter_cons_of_pos hv]
    rfl
  · rw [List.nil_append, Aggregator.afterValues_cons, f.afterCall_of_finite none hv]
    rfl

theorem IsEmitted.cons_accepted (hv : v.isFinite = true)
    (h : IsEmitted (f.withValue v) (some (a.elim (.single v) (·.insert v))) vs e) :
    IsEmitted f a (v :: vs) e := by
  obtain ⟨us, w, ws, acc, rfl, hw, hacc, rfl⟩ := h
  refine ⟨v :: us, w, ws, acc, rfl, hw, ?_, ?_⟩
  · rw [List.cons_append, List.filter_cons_of_pos hv]
    exact hacc
  · rw [List.cons_append, Aggregator.afterValues_cons, f.afterCall_of_finite none hv]

theorem IsEmitted.cons_refused (hv : v.isFinite = false) (h : IsEmitted f a vs e) :
    IsEmitted f a (v :: vs) e := by
  obtain ⟨us, w, ws, acc, rfl, hw, hacc, rfl⟩ := h
  refine ⟨v :: us, w, ws, acc, rfl, hw, ?_, ?_⟩
  · rw [List.cons_append, List.filter_cons_of_neg (by simp [hv])]
    exact hacc
  · rw [List.cons_append, Aggregator.afterValues_cons, f.afterCall_of_not_finite none hv]

/-- **Each estimate is that of a state**: the state after the values up to an accepted one. -/
theorem isEmitted_of_mem (he : .ok e ∈ (stoppingLoop target f a vs).items) :
    IsEmitted f a vs e := by
  induction f, a, vs using @stoppingLoop_induction _ target with
  | exhausted f a => cases he
  | within f a v vs hwithin =>
    rw [stoppingLoop_of_within hwithin] at he
    cases he
  | accepted f a v vs next hwithin hfold ih =>
    rw [stoppingLoop_of_ok hwithin hfold] at he
    obtain ⟨hv, hnext, hwith⟩ := Aggregator.fold_eq_ok hfold
    rw [hnext, hwith] at he ih
    rcases List.mem_cons.mp he with hhead | htail
    · cases hhead
      exact isEmitted_head hv
    · exact (ih htail).cons_accepted hv
  | refused f a v vs cause hwithin hfold ih =>
    rw [stoppingLoop_of_error hwithin hfold] at he
    obtain ⟨hv, -⟩ := Aggregator.fold_eq_error hfold
    rcases List.mem_cons.mp he with hhead | htail
    · cases hhead
    · exact (ih htail).cons_refused hv

/-- From no accumulator the estimate is that of the accepted values so far. -/
theorem IsEmitted.exists_values (h : IsEmitted f none vs e) :
    ∃ us y ys, us <+: vs ∧ us.filter Float.isFinite = y :: ys ∧
      e = (f.afterValues us).emitted (Accumulator.ofValues y ys) := by
  obtain ⟨us, v, ws, acc, rfl, hv, hacc, rfl⟩ := h
  have hpart : us ++ [v] <+: us ++ v :: ws := ⟨ws, by simp⟩
  cases hys : (us ++ [v]).filter Float.isFinite with
  | nil =>
    rw [hys] at hacc
    cases hacc
  | cons y ys =>
    rw [hys, Accumulator.extended_none_cons] at hacc
    cases hacc
    exact ⟨us ++ [v], y, ys, hpart, hys, rfl⟩

theorem IsEmitted.count_le (h : IsEmitted f none vs e) : e.count ≤ vs.length := by
  obtain ⟨us, y, ys, hpart, hys, rfl⟩ := h.exists_values
  calc ((f.afterValues us).emitted (Accumulator.ofValues y ys)).count
      = ys.length + 1 := Accumulator.count_ofValues y ys
    _ = (us.filter Float.isFinite).length := by rw [hys, List.length_cons]
    _ ≤ us.length := List.length_filter_le _ us
    _ ≤ vs.length := hpart.length_le

theorem IsEmitted.confidence_eq (h : IsEmitted f none vs e) :
    e.confidence = f.confidence.value := by
  obtain ⟨us, y, ys, -, -, rfl⟩ := h.exists_values
  exact congrArg ConfidenceLevel.value (f.afterCalls_settings _).1

end Emitted

/-! ## §2 What the trace keeps -/

namespace RunReport

/-- The estimates among the items. -/
def estimates (items : List Item) : List Estimate :=
  items.filterMap Except.toOption

@[simp] theorem estimates_nil : estimates [] = [] :=
  rfl

@[simp] theorem estimates_ok (e : Estimate) (items : List Item) :
    estimates (.ok e :: items) = e :: estimates items :=
  rfl

@[simp] theorem estimates_error (cause : EstimationError) (items : List Item) :
    estimates (.error cause :: items) = estimates items :=
  rfl

/-- The estimates of a list of items begin with that of the first item, if it is one. -/
theorem estimates_cons (item : Item) (items : List Item) :
    estimates (item :: items) = estimates [item] ++ estimates items := by
  cases item <;> rfl

theorem mem_estimates_iff {items : List Item} {e : Estimate} :
    e ∈ estimates items ↔ .ok e ∈ items := by
  induction items with
  | nil => simp [estimates]
  | cons item items ih => cases item <;> simp [ih]

theorem schedule_record (t : ConvergenceTrace) (e : Estimate) :
    (t.record e).schedule = t.schedule := by
  unfold ConvergenceTrace.record
  split <;> rfl

/-- While the items come in, the trace gets the estimates that are due, and the latest estimate is
remembered. -/
theorem foldl_add (r : RunReport) (items : List Item) :
    (items.foldl add r).trace.entries.toList =
        r.trace.entries.toList ++
          (estimates items).filter (fun e => r.trace.schedule.isDue e.count) ∧
      (items.foldl add r).last = (estimates items).getLast?.or r.last := by
  induction items generalizing r with
  | nil => simp [estimates]
  | cons item items ih =>
    obtain ⟨hentries, hlast⟩ := ih (r.add item)
    cases item with
    | error cause => exact ⟨hentries, hlast⟩
    | ok e =>
      rw [List.foldl_cons, hentries, hlast, estimates_ok]
      constructor
      · change (r.trace.record e).entries.toList ++
          (estimates items).filter (fun d => (r.trace.record e).schedule.isDue d.count) = _
        rw [ConvergenceTrace.toList_record, schedule_record, List.append_assoc]
        exact congrArg _ (List.filter_append [e] (estimates items)).symm
      · change (estimates items).getLast?.or (some e) = _
        rw [List.getLast?_cons]
        cases (estimates items).getLast? <;> rfl

/-- **What the trace has at the end**: the estimates that are due, in order, and then the last
estimate, unless the latest of them has its count already. -/
theorem toList_entries_ofItems (schedule : Schedule) (items : List Item) :
    let due := (estimates items).filter fun e => schedule.isDue e.count
    (ofItems schedule items).trace.entries.toList =
      due ++ (estimates items).getLast?.toList.filter fun e =>
        due.getLast?.map Estimate.count ≠ some e.count := by
  intro due
  obtain ⟨hentries, hlast⟩ := foldl_add (empty schedule) items
  set r := items.foldl add (empty schedule) with hr
  have hentries : r.trace.entries.toList = due := hentries
  have hlast : r.last = (estimates items).getLast? := by
    rw [hlast]
    exact Option.or_none
  -- So the latest entry before closing is the last that was due, not the last estimate.
  have hlatest : r.trace.latest = due.getLast? := by
    rw [ConvergenceTrace.latest_eq_getLast?, hentries]
  rw [ofItems, ← hr, close, hlast]
  cases (estimates items).getLast? with
  | none => simpa using hentries
  | some e =>
    change (r.trace.finish e).entries.toList = _
    rw [ConvergenceTrace.toList_finish, hentries, hlatest, Option.toList_some]
    refine congrArg (due ++ ·) ?_
    split
    · rename_i hsame
      simp [hsame]
    · rename_i hother
      have hkept : [e].filter (fun e => due.getLast?.map Estimate.count ≠ some e.count) = [e] :=
        List.filter_cons_of_pos (decide_eq_true hother)
      exact hkept.symm

/-- Every entry is an estimate of the run. -/
theorem mem_entries_ofItems {schedule : Schedule} {items : List Item} {e : Estimate}
    (he : e ∈ (ofItems schedule items).trace.entries.toList) : .ok e ∈ items := by
  rw [toList_entries_ofItems, List.mem_append] at he
  rw [← mem_estimates_iff]
  rcases he with hdue | hlast
  · exact List.mem_of_mem_filter hdue
  · exact List.mem_of_getLast? (Option.mem_toList.mp (List.mem_of_mem_filter hlast))

end RunReport

/-! ## §3 Whole runs -/

section Runs

variable [NaturalLog] {f : Aggregator} {target : Float} {xs : List Float}
  {r : PrecisionRun (List Float)}

/-- A run that was set up gives the items of the loop. -/
theorem items_of_start (hstart : PrecisionRun.start f target xs = .ok r) :
    (r.complete xs.length).items = (stoppingLoop target f none xs).items := by
  cases hcheck : TargetPrecision.check target with
  | error cause =>
    rw [PrecisionRun.start, hcheck] at hstart
    cases hstart
  | ok t =>
    have hvalue : t.value = target := by
      unfold TargetPrecision.check at hcheck
      split at hcheck
      · cases hcheck
        rfl
      · cases hcheck
    rw [PrecisionRun.start, hcheck] at hstart
    cases hstart
    rw [← hvalue]
    exact (PrecisionRun.take_eq_stoppingLoop ⟨Estimator.ofAggregator f, t, xs⟩
      (Nat.lt_succ_self xs.length)).1

/-- The trace of a run has estimates of states of the run only. -/
theorem isEmitted_of_mem_entries (hstart : PrecisionRun.start f target xs = .ok r)
    {schedule : Schedule} {e : Estimate}
    (he : e ∈ (RunReport.ofItems schedule (r.complete xs.length).items).trace.entries.toList) :
    IsEmitted f none xs e :=
  isEmitted_of_mem (items_of_start hstart ▸ RunReport.mem_entries_ofItems he)

end Runs

end OnlineAggregation
