import OnlineAggregation.Proofs.Aggregator.Monotone
import OnlineAggregation.Proofs.Binary64.Monotone
import OnlineAggregation.Proofs.Bound.SamplePlan

/-!
# Easier requests

A request for a sample gets easier with a lower confidence, a narrower domain and a greater target.
Main statement: if a request gets a plan, every easier one gets a plan, and for no more values. The
plan is found by a search that starts at a rounded quotient and ends at a formula, so two things are
compared: the quotient of the easier request does not leave the format before the other does, and
the count found for the harder request ends the search of the easier one too.
-/

namespace OnlineAggregation

open Binary64
open Numeric (NaturalLog ln wordSize)

/-! ## §1 The search -/

section Search

variable [NaturalLog] {level : ConfidenceLevel} {width target : Float} {fuel start m : ℕ}

/-- A search that comes by a sufficient count ends there or before. -/
theorem exists_firstSufficient?_le (hlow : start ≤ m) (hhigh : m ≤ start + fuel)
    (henough : ¬ target < level.hoeffding m width) :
    ∃ n ≤ m, firstSufficient? level width target fuel start = some n := by
  cases hsearch : firstSufficient? level width target fuel start with
  | none => exact absurd (firstSufficient?_eq_none hsearch m hlow hhigh) henough
  | some n =>
    obtain ⟨-, -, -, hbefore⟩ := firstSufficient?_eq_some hsearch
    refine ⟨n, ?_, rfl⟩
    by_contra hlt
    exact henough (hbefore m hlow (not_le.mp hlt))

end Search

/-- Rounding up keeps the order, and what lies below a number within reach is within reach. -/
theorem ceilCount_mono {x x' : Float} (hx : 0.0 ≤ x) (hxx : x ≤ x') (hreach : ¬ OutOfReach x') :
    ¬ OutOfReach x ∧ ceilCount x ≤ ceilCount x' := by
  obtain ⟨r', hr', -, hceil', -⟩ := exists_reads_of_reach (trans_le_le hx hxx) hreach
  obtain ⟨r, -, hrr, hr⟩ := exists_reads_below hx hxx hr'
  have hreach' : ¬ OutOfReach x := by
    rw [outOfReach_iff hr, not_le]
    exact hrr.trans_lt (not_le.mp (mt (outOfReach_iff hr').mpr hreach))
  obtain ⟨s, hs, -, hceil, -⟩ := exists_reads_of_reach hx hreach'
  obtain rfl : r = s := EReal.coe_eq_coe_iff.mp (hr.unique hs)
  refine ⟨hreach', ?_⟩
  rw [hceil, hceil']
  exact Nat.ceil_mono hrr

/-! ## §2 The formulas of two requests -/

section Requests

variable [NaturalLog] {level level' : ConfidenceLevel} {width width' target target' : Float}

theorem ConfidenceLevel.logTerm_nonneg (hmono : LogMonotone) (hpos : 0.0 ≤ ln 2.0)
    (c : ConfidenceLevel) : 0.0 ≤ c.logTerm := by
  exact trans_le_le hpos (hmono _ _ reads_literal_two.le_self c.ratio_mem.1 c.ratio_mem.2)

/-- A finite estimate has a finite width and a finite logarithm. -/
theorem isFinite_of_estimatedSamples (htarget : 0.0 ≤ 2.0 * target * target)
    (hfinite : (estimatedSamples level width target).isFinite = true) :
    width.isFinite = true ∧ level.logTerm.isFinite = true ∧
      (width * width * level.logTerm).isFinite = true := by
  have hdividend : (width * width * level.logTerm).isFinite = true := by
    rcases nonneg_cases htarget with htop | ⟨t, -, ht⟩
    · exact htop.isFinite_of_div_top hfinite
    · exact isFinite_of_div hfinite ht.isFinite
  obtain ⟨hsquare, hlog⟩ := isFinite_of_mul hdividend
  exact ⟨(isFinite_of_mul hsquare).1, hlog, hdividend⟩

omit [NaturalLog] in
/-- The divisor of the estimate grows with the target. -/
theorem divisor_mono {goal goal' : TargetPrecision} (hgoal : goal'.value ≤ goal.value) :
    0.0 ≤ 2.0 * goal'.value * goal'.value ∧
      2.0 * goal'.value * goal'.value ≤ 2.0 * goal.value * goal.value := by
  obtain ⟨t', hpos, ht'⟩ := goal'.exists_reads_value
  have htwo : (0.0 : Float) ≤ 2.0 := nonneg_of_reads reads_literal_two (by norm_num)
  have htwice : 0.0 ≤ 2.0 * goal'.value := nonneg_mul htwo ht' hpos
  have hgrows : 2.0 * goal'.value ≤ 2.0 * goal.value :=
    mul_mono_of_pos htwo reads_literal_two.le_self ht' hpos hgoal goal.finite
  exact ⟨nonneg_mul htwice ht' hpos, mul_mono_of_pos htwice hgrows ht' hpos hgoal goal.finite⟩

/-- The estimate of the easier request is not NaN, and not above the other one. -/
theorem estimatedSamples_mono {goal goal' : TargetPrecision} (hlog : 0.0 ≤ level.logTerm)
    (hlevel : level.logTerm ≤ level'.logTerm) (hwidth : 0.0 ≤ width) (hwidths : width ≤ width')
    (hgoal : goal'.value ≤ goal.value)
    (hfinite : (estimatedSamples level' width' goal'.value).isFinite = true) :
    0.0 ≤ estimatedSamples level width goal.value ∧
      estimatedSamples level width goal.value ≤ estimatedSamples level' width' goal'.value := by
  obtain ⟨hdivisor, hdivisors⟩ := divisor_mono hgoal
  obtain ⟨hwidth', hlog', hdividend'⟩ := isFinite_of_estimatedSamples hdivisor hfinite
  obtain ⟨hsquare', -⟩ := isFinite_of_mul hdividend'
  have hsquares : width * width ≤ width' * width' :=
    mul_mono hwidth hwidths hwidth' hwidth hwidths hwidth'
  have hdividends : width * width * level.logTerm ≤ width' * width' * level'.logTerm :=
    mul_mono (nonneg_mul_self hwidth) hsquares hsquare' hlog hlevel hlog'
  -- Both factors are finite, so the product with a vanishing logarithm is zero and not NaN.
  have hdividend : 0.0 ≤ width * width * level.logTerm := by
    obtain ⟨s', hs'⟩ := isFinite_iff_exists_reads.mp hsquare'
    obtain ⟨l', hl'⟩ := isFinite_iff_exists_reads.mp hlog'
    obtain ⟨s, hs, -, hsreads⟩ := exists_reads_below (nonneg_mul_self hwidth) hsquares hs'
    obtain ⟨l, hl, -, hlreads⟩ := exists_reads_below hlog hlevel hl'
    exact nonneg_of_reads (hsreads.mul hlreads) (nearest_nonneg (mul_nonneg hs hl))
  exact div_mem hdividend hdividends hdivisor hdivisors hfinite

/-- For one count the half-width grows with the logarithm and the width, down to a logarithm and a
width of zero. -/
theorem ConfidenceLevel.hoeffding_mono_of_isFinite {n : ℕ} (hn : 1 ≤ n) (hword : n < 2 ^ 64)
    (hlog : 0.0 ≤ level.logTerm) (hlevel : level.logTerm ≤ level'.logTerm)
    (hlog' : level'.logTerm.isFinite = true) (hwidth : 0.0 ≤ width) (hwidths : width ≤ width')
    (hwidth' : width'.isFinite = true) : level.hoeffding n width ≤ level'.hoeffding n width' := by
  obtain ⟨l', hl'⟩ := isFinite_iff_exists_reads.mp hlog'
  obtain ⟨l, hl, hll, hlreads⟩ := exists_reads_below hlog hlevel hl'
  have hdivisor := reads_divisor hn hword
  have hone : 1 ≤ rounded (2 * rounded n) := by
    have htwo := two_zpow_le_divisor hn
    norm_num at htwo
    linarith
  have hnonneg : 0.0 ≤ 2.0 * Float.ofNat n :=
    nonneg_of_reads hdivisor (EReal.coe_nonneg.mpr (zero_le_one.trans hone))
  have hquotient' := isFinite_div hl' (hl.trans hll) hdivisor hone
  obtain ⟨hquotient, hquotients⟩ := div_mem hlog hlevel hnonneg hdivisor.le_self hquotient'
  have hfactors := sqrt_mono hquotient hquotients
  obtain ⟨q', hq', hqreads'⟩ := exists_reads_nonneg (trans_le_le hquotient hquotients) hquotient'
  exact mul_mono hwidth hwidths hwidth' (nonneg_sqrt hquotient) hfactors (isFinite_sqrt hqreads' hq')

/-! ## §3 The plans of two requests -/

variable {domain domain' : ValueDomain} {goal goal' : TargetPrecision} {n n' : ℕ}

/-- What a plan tells of its search: it started at a count within reach, and ended before the counts
of 64 bits did. -/
theorem search_of_ok
    (h : requiredSamples level.value domain.lower domain.upper goal.value = .ok n) :
    ¬ OutOfReach (estimatedSamples level domain.width goal.value) ∧
      ceilCount (estimatedSamples level domain.width goal.value) ≤ n ∧ 1 ≤ n ∧
      n ≤ max (ceilCount (estimatedSamples level domain.width goal.value)) (2 ^ 64 - 1) ∧
      ¬ goal.value < level.hoeffding n domain.width := by
  by_cases hreach : OutOfReach (estimatedSamples level domain.width goal.value)
  · cases h.symm.trans (requiredSamples_of_outOfReach hreach)
  have hplan := h.symm.trans (requiredSamples_of_reach hreach)
  have hsize : wordSize = 2 ^ 64 := rfl
  split at hplan
  · rename_i m hsearch
    obtain rfl := Except.ok.inj hplan
    obtain ⟨hlow, hhigh, henough, -⟩ := firstSufficient?_eq_some hsearch
    exact ⟨hreach, by omega, by omega, by omega, henough⟩
  · cases hplan

/-- A request gets a plan as soon as a count from its estimate on does. -/
theorem exists_requiredSamples_le
    (hreach : ¬ OutOfReach (estimatedSamples level domain.width goal.value))
    (hstart : ceilCount (estimatedSamples level domain.width goal.value) ≤ n) (hn : 1 ≤ n)
    (hword : n < 2 ^ 64) (henough : ¬ goal.value < level.hoeffding n domain.width) :
    ∃ m, requiredSamples level.value domain.lower domain.upper goal.value = .ok m ∧ m ≤ n := by
  set start := max (ceilCount (estimatedSamples level domain.width goal.value)) 1 with hstart_eq
  have hsize : wordSize = 2 ^ 64 := rfl
  have hlow : start ≤ n := max_le hstart hn
  have hhigh : n ≤ start + (wordSize - 1 - start) := by omega
  obtain ⟨m, hmn, hsearch⟩ := exists_firstSufficient?_le hlow hhigh henough
  have hplan := requiredSamples_of_reach hreach
  dsimp only at hplan
  rw [← hstart_eq] at hplan
  rw [hsearch] at hplan
  exact ⟨m, hplan, hmn⟩

/-- **An easier request gets a plan that is no greater**: if a request gets a plan, so does every
request with a confidence that is not higher, a domain that is not wider and a target that is not
smaller, and its plan is not for more values. The logarithm is only taken to be monotone, and not
negative at 2. -/
theorem requiredSamples_mono (hmono : LogMonotone) (hpos : 0.0 ≤ ln 2.0)
    (hlevel : level.value ≤ level'.value) (hdomain : domain.width ≤ domain'.width)
    (hgoal : goal'.value ≤ goal.value)
    (h : requiredSamples level'.value domain'.lower domain'.upper goal'.value = .ok n') :
    ∃ n, requiredSamples level.value domain.lower domain.upper goal.value = .ok n ∧ n ≤ n' := by
  obtain ⟨hreach', hstart', hn', hend', henough'⟩ := search_of_ok h
  have hlog := level.logTerm_nonneg hmono hpos
  have hlogs := ConfidenceLevel.logTerm_mono hmono hlevel
  have hfinite : (estimatedSamples level' domain'.width goal'.value).isFinite = true :=
    not_not.mp fun hnot => hreach' (Or.inl hnot)
  -- The easier request starts its search where the other one does, or before.
  obtain ⟨hestimate, hestimates⟩ := estimatedSamples_mono hlog hlogs domain.width_nonneg hdomain
    hgoal hfinite
  obtain ⟨hreach, hceil⟩ := ceilCount_mono hestimate hestimates hreach'
  have hword : n' < 2 ^ 64 := by
    obtain ⟨r, -, -, hround, hsmall⟩ :=
      exists_reads_of_reach (trans_le_le hestimate hestimates) hreach'
    omega
  -- Where the other one ends, the half-width of the easier request is below its target as well.
  obtain ⟨hwidth', hlog', -⟩ := isFinite_of_estimatedSamples (divisor_mono hgoal).1 hfinite
  have hwidths : level.hoeffding n' domain.width ≤ level'.hoeffding n' domain'.width :=
    ConfidenceLevel.hoeffding_mono_of_isFinite hn' hword hlog hlogs hlog' domain.width_nonneg
      hdomain hwidth'
  have henough : ¬ goal.value < level.hoeffding n' domain.width := fun habove =>
    henough' (trans_lt_le (trans_le_lt hgoal habove) hwidths)
  exact exists_requiredSamples_le hreach (hceil.trans hstart') hn' hword henough

end Requests

/-- A logarithm that is right at 4 and at 8, where even odds and three in four ask for it. -/
@[reducible] def logAtEight : NaturalLog where
  ln x := Float.ofBits (if 8.0 ≤ x then 0x4000a2b23f3bab73 else 0x3ff62e42fefa39ef)

theorem logMonotone_logAtEight : @LogMonotone logAtEight :=
  logMonotone_of_step (by decide)

/-- Three in four, as a confidence. -/
def threeInFour : ConfidenceLevel :=
  ⟨0.75, by decide, by decide⟩

/-- Sixty-seven values from `[0, 2]` are enough for a quarter at three in four. So even odds, the
narrower `[0, 1]` and the greater target of a half take no more. -/
theorem requiredSamples_mono_half :
    @requiredSamples logAtEight 0.75 0.0 2.0 0.25 = .ok 67 ∧
      ∃ n, @requiredSamples logAtEight 0.5 0.0 1.0 0.5 = .ok n ∧ n ≤ 67 := by
  have hharder : @requiredSamples logAtEight 0.75 0.0 2.0 0.25 = .ok 67 := by decide +kernel
  refine ⟨hharder, ?_⟩
  exact @requiredSamples_mono logAtEight Aggregator.half threeInFour Aggregator.unitDomain
    ⟨⟨0.0, 2.0⟩, by decide, by decide, by decide⟩ ⟨0.5, by decide, by decide⟩
    ⟨0.25, by decide, by decide⟩ 67 logMonotone_logAtEight (by decide) (by decide) (by decide)
    (by decide) hharder

end OnlineAggregation
