import OnlineAggregation.Proofs.Run.Report

/-!
# The counts in a trace

A run counts the values it accepts, and a refused value neither takes a count nor leaves a gap. Main
statement: the estimates of a run have the counts from one on, and its trace has those that are due
and then the last one, so that its counts increase and nothing is in it twice.
-/

namespace OnlineAggregation

open Numeric (NaturalLog)

/-! ## §1 Counts of a run -/

/-- How many values an accumulator summarises. -/
def Accumulator.countOf (a : Option (Accumulator Float)) : Nat :=
  a.elim 0 Accumulator.count

/-- The accepted values are counted on from those before, whatever is refused between them. -/
theorem map_count_estimates [NaturalLog] (target : Float) (f : Aggregator)
    (a : Option (Accumulator Float)) (vs : List Float) :
    let items := (stoppingLoop target f a vs).items
    (RunReport.estimates items).map Estimate.count =
      List.range' (Accumulator.countOf a + 1)
        ((vs.take items.length).filter Float.isFinite).length := by
  induction f, a, vs using @stoppingLoop_induction _ target with
  | exhausted f a => rfl
  | within f a v vs hwithin =>
    rw [stoppingLoop_of_within hwithin]
    rfl
  | accepted f a v vs next hwithin hfold ih =>
    obtain ⟨hv, hnext, -⟩ := Aggregator.fold_eq_ok hfold
    have hcount : next.accumulator.count = Accumulator.countOf a + 1 := by
      rw [hnext]
      cases a <;> rfl
    rw [stoppingLoop_of_ok hwithin hfold]
    intro items
    have hlength : items.length =
        (stoppingLoop target next.aggregator (some next.accumulator) vs).items.length + 1 := rfl
    rw [hlength, List.take_succ_cons, List.filter_cons_of_pos hv, List.length_cons,
      List.range'_succ, RunReport.estimates_ok, List.map_cons, ih]
    -- The first estimate has the count after it, from which the others count on.
    have hhead : (next.aggregator.emitted next.accumulator).count = next.accumulator.count := rfl
    have htail : Accumulator.countOf (some next.accumulator) = next.accumulator.count := rfl
    rw [hhead, htail, hcount]
  | refused f a v vs cause hwithin hfold ih =>
    obtain ⟨hv, -⟩ := Aggregator.fold_eq_error hfold
    rw [stoppingLoop_of_error hwithin hfold]
    intro items
    have hlength : items.length = (stoppingLoop target f a vs).items.length + 1 := rfl
    rw [hlength, List.take_succ_cons, List.filter_cons_of_neg (by simp [hv]),
      RunReport.estimates_error, ih]

/-! ## §2 What a trace keeps of its estimates -/

namespace RunReport

variable {schedule : Schedule} {items : List Item}

/-- The last estimate is kept at the end unless its own count is due: no estimate before it has
that count and is due while it is not. -/
theorem toList_entries_eq_due (schedule : Schedule) (items : List Item) :
    (ofItems schedule items).trace.entries.toList =
      (estimates items).filter (fun e => schedule.isDue e.count) ++
        (estimates items).getLast?.toList.filter fun e => !schedule.isDue e.count := by
  rw [toList_entries_ofItems]
  rcases List.eq_nil_or_concat (estimates items) with hnone | ⟨es, e, hes⟩
  · rw [hnone]
    rfl
  · rw [hes, List.concat_eq_append, List.getLast?_append_of_ne_nil _ (List.cons_ne_nil e [])]
    -- Both sides add at most the last estimate, so the two conditions on it have to agree.
    refine congrArg _ (List.filter_congr fun d hd => ?_)
    obtain rfl : d = e := by simpa using hd
    rw [List.filter_append]
    cases hdue : schedule.isDue d.count with
    | true =>
      have hkept : [d].filter (fun e => schedule.isDue e.count) = [d] :=
        List.filter_cons_of_pos hdue
      rw [hkept, List.getLast?_concat]
      simp
    | false =>
      have hleft : [d].filter (fun e => schedule.isDue e.count) = [] :=
        List.filter_cons_of_neg (by simp [hdue])
      rw [hleft, List.append_nil]
      refine decide_eq_true fun hsame => ?_
      -- An equal count that is kept would be due, and this one is not.
      obtain ⟨c, hc, hcount⟩ := Option.map_eq_some_iff.mp hsame
      have hdue' : schedule.isDue c.count = true :=
        (List.mem_filter.mp (List.mem_of_getLast? hc)).2
      rw [hcount, hdue] at hdue'
      cases hdue'

/-- The trace leaves estimates out and changes nothing else about them. -/
theorem entries_sublist (schedule : Schedule) (items : List Item) :
    (ofItems schedule items).trace.entries.toList.Sublist (estimates items) := by
  rw [toList_entries_eq_due]
  rcases List.eq_nil_or_concat (estimates items) with hnone | ⟨es, e, hes⟩
  · rw [hnone]
    exact List.Sublist.refl []
  · rw [hes, List.concat_eq_append, List.getLast?_concat, List.filter_append, List.append_assoc]
    refine List.filter_sublist.append ?_
    cases hdue : schedule.isDue e.count <;> simp [hdue]

/-- The trace ends with the last estimate. -/
theorem latest_ofItems (schedule : Schedule) (items : List Item) :
    (ofItems schedule items).trace.latest = (estimates items).getLast? := by
  rw [ConvergenceTrace.latest_eq_getLast?, toList_entries_eq_due]
  rcases List.eq_nil_or_concat (estimates items) with hnone | ⟨es, e, hes⟩
  · rw [hnone]
    rfl
  · rw [hes, List.concat_eq_append, List.getLast?_concat, List.filter_append]
    cases hdue : schedule.isDue e.count <;> simp [hdue]

end RunReport

/-! ## §3 Whole runs -/

section Runs

variable [NaturalLog]

/-- **The trace of a run is the due counts and the end**, for every aggregator, every finite positive
target, every list and every schedule. A run over the list takes a value for each item. Its estimates
have the counts from 1 to the number of finite values taken; the trace has those that are due, in
order, and then the last one if its count is not due. So the counts in the trace increase, no entry
is there twice, its latest entry is the last estimate, and it is empty only if no value was
accepted. -/
theorem trace_eq_due_and_last (f : Aggregator) {target : Float} (hfinite : target.isFinite = true)
    (hpositive : 0.0 < target) (xs : List Float) (schedule : Schedule) :
    ∃ r : PrecisionRun (List Float), PrecisionRun.start f target xs = .ok r ∧
      let s := r.complete xs.length
      let accepted := ((xs.take s.items.length).filter Float.isFinite).length
      let emitted := RunReport.estimates s.items
      let t := (RunReport.ofItems schedule s.items).trace
      (s.ended = true ∧ s.run.source = xs.drop s.items.length) ∧
      emitted.map Estimate.count = List.range' 1 accepted ∧
      t.entries.toList =
        emitted.filter (fun e => schedule.isDue e.count) ++
          (if schedule.isDue accepted then [] else emitted.getLast?.toList) ∧
      (t.entries.toList.map Estimate.count).Pairwise (· < ·) ∧
      t.entries.toList.Nodup ∧
      t.latest = emitted.getLast? ∧
      (t.entries.toList = [] ↔ accepted = 0) := by
  obtain ⟨r, hstart, ⟨hitems, hended, -, -⟩, ⟨-, hsource⟩, -⟩ :=
    PrecisionRun.complete_eq_stoppingLoop f hfinite hpositive xs
  refine ⟨r, hstart, ?_⟩
  intro s accepted emitted t
  have hcounts : emitted.map Estimate.count = List.range' 1 accepted := by
    have hall := map_count_estimates target f none xs
    rw [← hitems] at hall
    exact hall
  have hincreasing : (emitted.map Estimate.count).Pairwise (· < ·) := by
    rw [hcounts]
    exact List.pairwise_lt_range'
  have hsublist : t.entries.toList.Sublist emitted := RunReport.entries_sublist schedule s.items
  have hkept : (t.entries.toList.map Estimate.count).Pairwise (· < ·) :=
    hincreasing.sublist (hsublist.map Estimate.count)
  have hlatest : t.latest = emitted.getLast? := RunReport.latest_ofItems schedule s.items
  have hlast : emitted.getLast?.toList.filter (fun e => !schedule.isDue e.count) =
      if schedule.isDue accepted then [] else emitted.getLast?.toList := by
    cases hend : emitted.getLast? with
    | none => simp
    | some e =>
      have hcount : e.count = accepted := by
        -- The last of the counts from one on is their number.
        have hlast : (List.range' 1 accepted).getLast? = some e.count := by
          rw [← hcounts, List.getLast?_map, hend]
          rfl
        simp [List.getLast?_range'] at hlast
        omega
      cases hdue : schedule.isDue accepted <;> simp [hcount, hdue]
  refine ⟨⟨hended, hsource⟩, hcounts, ?_, hkept, ?_, hlatest, ?_⟩
  · rw [← hlast]
    exact RunReport.toList_entries_eq_due schedule s.items
  · exact (List.pairwise_map.mp hkept).imp fun hlt heq => absurd (heq ▸ hlt) (lt_irrefl _)
  · rw [ConvergenceTrace.latest, ← Array.getLast?_toList] at hlatest
    rw [← List.getLast?_eq_none_iff, hlatest, List.getLast?_eq_none_iff, ← List.length_eq_zero_iff,
      ← List.length_map Estimate.count, hcounts, List.length_range']

end Runs

theorem trace_eq_due_and_last_half :
    ∃ r, PrecisionRun.start ⟨Aggregator.half, .largeSample none, 0, none, none⟩ 0.5
        [1.0, Numeric.nan] = .ok r ∧
      let items := (r.complete 2).items
      (RunReport.ofItems (.every 2) items).trace.latest = (RunReport.estimates items).getLast? := by
  obtain ⟨r, hstart, -, -, -, -, -, hlatest, -⟩ := trace_eq_due_and_last
    ⟨Aggregator.half, .largeSample none, 0, none, none⟩
    (show Float.isFinite 0.5 = true by decide) (by decide) [1.0, Numeric.nan]
    (.every 2)
  exact ⟨r, hstart, hlatest⟩

end OnlineAggregation
