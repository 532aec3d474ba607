import OnlineAggregation.Proofs.Accumulator.MeanWithinRange
import OnlineAggregation.Proofs.Aggregator.FiniteHalfWidth
import OnlineAggregation.Proofs.Json.Record
import OnlineAggregation.Proofs.Run.Report
import OnlineAggregation.Trace.Export

/-!
# Reading traces back

A trace is exported as a JSON array of its estimates. Main statements: the array has an object for
each entry of the trace, in order; the object of an entry of a run is read as an estimate exactly if
its mean and its half-width are finite, and then it has the same count; so a run over a declared
domain of safe width, with values from a range of finite width, is read back as a whole, but a run
that shows a missing half-width as infinite is not.
-/

namespace OnlineAggregation

open Json (TreeLayout Row Value IsSpace)
open Numeric (NaturalLog)

/-! ## §1 Estimates -/

namespace Estimate

/-- The estimate with the numbers that are read from their texts. -/
def reread (e : Estimate) : Estimate :=
  { e with
    mean := Json.reread e.mean
    epsilon := Json.reread e.epsilon
    confidence := Json.reread e.confidence }

/-- Whether all three numbers are finite. -/
def isFinite (e : Estimate) : Bool :=
  e.mean.isFinite && e.epsilon.isFinite && e.confidence.isFinite

/-- Each number has to be finite to be taken again. -/
theorem reread_toRow (e : Estimate) :
    Row.reread fields e.toRow =
      if e.isFinite then .ok e.reread.toRow else Json.unfit (.wrongType .null "f64") := by
  let taken (x : Float) := Json.Scalar.number.ofValue (Json.Scalar.number.toValue x).reread
  have htaken : ∀ x, taken x =
      if x.isFinite then .ok (Json.reread x) else Json.unfit (.wrongType .null "f64") :=
    Json.Scalar.ofValue_reread_number
  change ((taken e.mean >>= fun mean => (taken e.epsilon >>= fun epsilon =>
    (taken e.confidence >>= fun confidence => pure (confidence, ())) >>= fun row =>
      pure (epsilon, row)) >>= fun row => pure (mean, row)) >>= fun row => pure (e.count, row)) = _
  rw [htaken, htaken, htaken, isFinite]
  cases e.mean.isFinite <;> cases e.epsilon.isFinite <;> cases e.confidence.isFinite <;> rfl

theorem fits_toValue {e : Estimate} (hcount : e.count < 2 ^ 64) (room : ℕ) :
    e.toValue.Fits (room + 1) := by
  refine .object fun m hm => ?_
  rcases hm with _ | ⟨_, _ | ⟨_, _ | ⟨_, _ | ⟨_, hm⟩⟩⟩⟩
  · exact .number hcount
  · exact .number trivial
  · exact .number trivial
  · exact .number trivial
  · cases hm

theorem nodup_names : (fields.map Json.Field.name).Nodup := by
  decide

/-- **The text of an estimate is read** exactly if its numbers are finite. -/
theorem parse_text (l : TreeLayout) {e : Estimate} (hcount : e.count < 2 ^ 64) {level : ℕ}
    {text : String} (htext : text.toList = l.text level e.toValue) :
    parse text = if e.isFinite then .ok e.reread else Json.unfit (.wrongType .null "f64") := by
  have hread : Json.readRecord "struct Estimate" fields Json.greatestDepth
      ([] ++ (l.text level e.toValue ++ [])) = (Row.reread fields e.toRow).map (·, []) :=
    Json.readRecord_row l nodup_names _ (fits_toValue hcount _) Json.isSpace_nil
  rw [List.nil_append, List.append_nil, ← htext, reread_toRow] at hread
  rw [parse, Json.readWhole_of_isSpace hread Json.isSpace_nil]
  split <;> rfl

end Estimate

/-! ## §2 Traces -/

namespace ConvergenceTrace

/-- The text of the object of an entry, as it stands in the array. -/
def objectText (e : Estimate) : String :=
  e.toValue.indented 1

/-- **The export is an array** with an object for each entry, in order. -/
theorem parse_json {t : ConvergenceTrace} (hcounts : ∀ e ∈ t.entries.toList, e.count < 2 ^ 64) :
    Value.parse t.json = .ok (.array (t.entries.toList.map fun e => e.toValue.reread)) := by
  have hfits : (Value.array (t.entries.toList.map Estimate.toValue)).Fits Json.greatestDepth := by
    refine .array fun v hv => ?_
    obtain ⟨e, he, rfl⟩ := List.mem_map.mp hv
    exact Estimate.fits_toValue (hcounts e he) 125
  have hspace : IsSpace "\n".toList := Json.isSpace_singleton (c := '\n') rfl
  rw [json, Value.pretty,
    Value.parse_of_text Value.indentedLayout hfits String.toList_append hspace, Value.reread,
    Value.rereadElements_eq_map, List.map_map]
  rfl

end ConvergenceTrace

/-! ## §3 Runs -/

/-- What is read from the object of an entry, from its text or from the tree of the array. -/
theorem parse_objectText {e : Estimate} (hcount : e.count < 2 ^ 64) :
    Estimate.parse (ConvergenceTrace.objectText e) =
        (if e.isFinite then .ok e.reread else Json.unfit (.wrongType .null "f64")) ∧
      (e.toValue.reread.toRow "struct Estimate" Estimate.fields).map Estimate.ofRow =
        Estimate.parse (ConvergenceTrace.objectText e) := by
  have hparse := Estimate.parse_text Value.indentedLayout hcount
    (rfl : (ConvergenceTrace.objectText e).toList = _)
  refine ⟨hparse, ?_⟩
  rw [hparse, Estimate.toValue, Json.toRow_reread Estimate.nodup_names, Estimate.reread_toRow]
  split <;> rfl

section Runs

variable [NaturalLog]

/-- The confidence of an estimate of a run is finite at any rate. -/
theorem IsEmitted.isFinite_iff {f : Aggregator} {xs : List Float} {e : Estimate}
    (h : IsEmitted f none xs e) :
    e.isFinite = true ↔ e.mean.isFinite = true ∧ e.epsilon.isFinite = true := by
  obtain ⟨c, -, -, hc⟩ := f.confidence.exists_reads_value
  rw [Estimate.isFinite, h.confidence_eq, hc.isFinite, Bool.and_true, Bool.and_eq_true]

/-- **A run is read back entry by entry**, for every aggregator, every finite positive target, every
source and every schedule. The export of its trace is an array with an object for each entry, in
order. The object of an entry, in the text or as an element of the array, is read as an estimate if
and only if the mean and the half-width of the entry are finite. The estimate has the same count;
and otherwise a `null` is found in place of a number. -/
theorem parse_export_of_run (f : Aggregator) {target : Float} (hfinite : target.isFinite = true)
    (hpositive : 0.0 < target) (xs : List Float) (hlength : xs.length < 2 ^ 64)
    (schedule : Schedule) :
    ∃ r : PrecisionRun (List Float), PrecisionRun.start f target xs = .ok r ∧
      let t := (RunReport.ofItems schedule (r.complete xs.length).items).trace
      Value.parse (t.exportText .json) =
          .ok (.array (t.entries.toList.map fun e => e.toValue.reread)) ∧
      ∀ e ∈ t.entries.toList,
        let parsed := Estimate.parse (ConvergenceTrace.objectText e)
        (e.toValue.reread.toRow "struct Estimate" Estimate.fields).map Estimate.ofRow = parsed ∧
        ((∃ e', parsed = .ok e') ↔ e.mean.isFinite = true ∧ e.epsilon.isFinite = true) ∧
        (∀ e', parsed = .ok e' → e'.count = e.count) ∧
        (∀ fault, parsed = .error fault → fault = .unfit (.wrongType .null "f64")) := by
  obtain ⟨_, -, hstart⟩ := PrecisionRun.start_eq_ok f hfinite hpositive xs
  refine ⟨_, hstart, ?_⟩
  intro t
  have hemitted : ∀ e ∈ t.entries.toList, IsEmitted f none xs e := fun e he =>
    isEmitted_of_mem_entries hstart he
  -- A count of more bits would not be read at all.
  have hcounts : ∀ e ∈ t.entries.toList, e.count < 2 ^ 64 := fun e he =>
    (hemitted e he).count_le.trans_lt hlength
  refine ⟨ConvergenceTrace.parse_json hcounts, ?_⟩
  intro e he parsed
  obtain ⟨hparsed, htree⟩ := parse_objectText (hcounts e he)
  have hiff := (hemitted e he).isFinite_iff
  refine ⟨htree, ?_⟩
  have hparsed : parsed = _ := hparsed
  rw [← hiff, hparsed]
  cases e.isFinite with
  | true =>
    refine ⟨iff_of_true ⟨_, rfl⟩ rfl, ?_, nofun⟩
    intro e' he'
    cases he'
    rfl
  | false =>
    refine ⟨iff_of_false nofun Bool.false_ne_true, nofun, ?_⟩
    intro fault hfault
    cases hfault
    rfl

/-- Over a declared domain of safe width every estimate has a finite half-width. -/
theorem IsEmitted.isFinite_epsilon (hlog : LogInRange) {f : Aggregator} (hbuilt : Aggregator.Built f)
    (hfits : f.PlanFits) {domain : ValueDomain} (hdomain : f.strategy.domain? = some domain)
    (hsafe : domain.width ≤ safeWidth) {xs : List Float} (hlength : xs.length < 2 ^ 64)
    {e : Estimate} (h : IsEmitted f none xs e) : e.epsilon.isFinite = true := by
  obtain ⟨us, y, ys, hpart, hys, rfl⟩ := h.exists_values
  set g := f.afterValues us with hg
  have hremembers : g.Remembers (y :: ys) := by
    rw [← hys, ← Aggregator.acceptedValues_map]
    exact hbuilt.remembers _
  have hstrategy : g.strategy = f.strategy := (f.afterCalls_settings _).2
  have hword : (y :: ys).length < 2 ^ 64 := by
    rw [← hys]
    exact (List.length_filter_le _ us).trans_lt (hpart.length_le.trans_lt hlength)
  obtain ⟨range, hobserved, -⟩ := hremembers.observed_of_ne_nil (List.cons_ne_nil y ys)
  obtain ⟨n, hbasis⟩ : ∃ n, g.strategy.basis? g.observations (some range) =
      some (domain.toValueRange, n) := Strategy.basis?_of_domain (hstrategy ▸ hdomain) range
  rw [← hobserved] at hbasis
  -- Whichever count the strategy goes by, planned or observed, it has 64 bits.
  have hsolid : IsSolid domain.toValueRange n :=
    hremembers.isSolid_basis hword (fun _ _ h => hbuilt.planned_ne_zero h)
      (fun d planned h => hfits d planned (hstrategy ▸ h)) hbasis
  have hepsilon : g.epsilon? = some (g.confidence.hoeffding n domain.width) := by
    rw [hremembers.epsilon_eq_basis, Aggregator.basis?, hbasis]
    rfl
  have hemitted : (g.emitted (Accumulator.ofValues y ys)).epsilon =
      g.confidence.hoeffding n domain.width := by
    rw [Aggregator.emitted, Aggregator.epsilon, hepsilon]
  rw [hemitted]
  exact hsolid.isFinite_of_width_le hlog g.confidence hsafe

/-- Values from a range of finite width give every estimate a finite mean. -/
theorem IsEmitted.isFinite_mean {f : Aggregator} {r : ValueRange} (hlower : r.lower.isFinite = true)
    (hupper : r.upper.isFinite = true) (hwidth : r.width.isFinite = true) {xs : List Float}
    (hvalues : ∀ v ∈ xs, v.isFinite = true → r.contains v = true) (hlength : xs.length < 2 ^ 64)
    {e : Estimate} (h : IsEmitted f none xs e) : e.mean.isFinite = true := by
  obtain ⟨us, y, ys, hpart, hys, rfl⟩ := h.exists_values
  refine (Accumulator.isSound_of_width hlower hupper hwidth ?_ ?_).mean_finite
  · intro v hv
    rw [← hys, List.mem_filter] at hv
    exact hvalues v (hpart.subset hv.1) hv.2
  · rw [← List.length_cons (a := y), ← hys]
    exact (List.length_filter_le _ us).trans_lt (hpart.length_le.trans_lt hlength)

/-- **A run over a declared domain is read back** if the domain has a safe width and the values are
from a range of finite width: the object of every entry is read as an estimate of the same count. -/
theorem parse_entries_of_domain (hlog : LogInRange) {f : Aggregator} (hbuilt : Aggregator.Built f)
    (hfits : f.PlanFits) {domain : ValueDomain} (hdomain : f.strategy.domain? = some domain)
    (hsafe : domain.width ≤ safeWidth) {target : Float} (hfinite : target.isFinite = true)
    (hpositive : 0.0 < target) {r : ValueRange} (hlower : r.lower.isFinite = true)
    (hupper : r.upper.isFinite = true) (hwidth : r.width.isFinite = true) {xs : List Float}
    (hvalues : ∀ v ∈ xs, v.isFinite = true → r.contains v = true) (hlength : xs.length < 2 ^ 64)
    (schedule : Schedule) :
    ∃ run : PrecisionRun (List Float), PrecisionRun.start f target xs = .ok run ∧
      ∀ e ∈ (RunReport.ofItems schedule (run.complete xs.length).items).trace.entries.toList,
        ∃ e', Estimate.parse (ConvergenceTrace.objectText e) = .ok e' ∧ e'.count = e.count := by
  obtain ⟨_, -, hstart⟩ := PrecisionRun.start_eq_ok f hfinite hpositive xs
  refine ⟨_, hstart, fun e he => ?_⟩
  have hstate : IsEmitted f none xs e := isEmitted_of_mem_entries hstart he
  have hall : e.isFinite = true :=
    hstate.isFinite_iff.mpr ⟨hstate.isFinite_mean hlower hupper hwidth hvalues hlength,
      hstate.isFinite_epsilon hlog hbuilt hfits hdomain hsafe hlength⟩
  obtain ⟨hparsed, -⟩ := parse_objectText (hstate.count_le.trans_lt hlength)
  rw [hparsed, if_pos hall]
  exact ⟨_, rfl, rfl⟩

end Runs

/-- Of two different values the first leaves no half-width, and the second brings one that is read
back. -/
theorem parse_export_of_run_two :
    ∃ r, PrecisionRun.start ⟨Aggregator.half, .largeSample none, 0, none, none⟩ 0.25 [2.0, 3.0] =
        .ok r ∧
      ∃ e₁ e₂ e', (RunReport.ofItems .default
          (@PrecisionRun.complete _ logAtFour _ 2 r).items).trace.entries.toList = [e₁, e₂] ∧
        (¬ ∃ e, Estimate.parse (ConvergenceTrace.objectText e₁) = .ok e) ∧
        Estimate.parse (ConvergenceTrace.objectText e₂) = .ok e' ∧ e'.count = 2 := by
  obtain ⟨r, hstart, -, hentries⟩ := @parse_export_of_run logAtFour
    ⟨Aggregator.half, .largeSample none, 0, none, none⟩ 0.25 (by decide)
    (by decide) [2.0, 3.0] (by decide) .default
  have hlist : (RunReport.ofItems .default
      (@PrecisionRun.complete _ logAtFour _ 2 r).items).trace.entries.toList =
      [⟨1, 2.0, Numeric.infinity, 0.5⟩,
        ⟨2, 2.5, @ConfidenceLevel.hoeffding logAtFour Aggregator.half 2 1.0, 0.5⟩] := by
    have hitems : (@PrecisionRun.complete _ logAtFour _ 2 r).items = _ :=
      @items_of_start logAtFour _ _ [2.0, 3.0] _ hstart
    rw [hitems]
    decide +kernel
  obtain ⟨-, hfirst, -⟩ := hentries _ (hlist ▸ List.mem_cons_self)
  obtain ⟨-, hsecond, hcount, -⟩ := hentries _ (hlist ▸ List.mem_cons_of_mem _ List.mem_cons_self)
  obtain ⟨e', he'⟩ := hsecond.mpr (by decide +kernel)
  exact ⟨r, hstart, _, _, e', hlist, mt hfirst.mp (by decide), he', hcount e' he'⟩

/-- With one value there is no half-width over the range seen, the entry shows it as infinite, and
the export has a `null` that is not read back. -/
theorem not_parsed_of_single_value :
    @Aggregator.largeSample logAtFour Aggregator.half.value =
        .ok ⟨Aggregator.half, .largeSample none, 0, none, none⟩ ∧
      ∃ r, PrecisionRun.start ⟨Aggregator.half, .largeSample none, 0, none, none⟩ 1.0 [3.0] =
          .ok r ∧
        ∃ e, (RunReport.ofItems .default
            (@PrecisionRun.complete _ logAtFour _ 1 r).items).trace.entries.toList = [e] ∧
          Estimate.parse (ConvergenceTrace.objectText e) =
            .error (.unfit (.wrongType .null "f64")) := by
  obtain ⟨_, -, hstart⟩ := @PrecisionRun.start_eq_ok (List Float)
    ⟨Aggregator.half, .largeSample none, 0, none, none⟩ 1.0 (by decide) (by decide)
    [3.0]
  have hitems : (@PrecisionRun.complete _ logAtFour _ 1 _).items = _ :=
    @items_of_start logAtFour _ _ [3.0] _ hstart
  refine ⟨@Aggregator.largeSample_half logAtFour, _, hstart, ⟨1, 3.0, Numeric.infinity, 0.5⟩, ?_, ?_⟩
  · rw [hitems]
    decide
  · exact (parse_objectText (by decide)).1.trans (if_neg (by decide))

end OnlineAggregation
