import OnlineAggregation.Bound.SamplePlan
import OnlineAggregation.Proofs.Bound.Overflow

/-!
# The estimated sample count

The formula solved for the count is evaluated in rounded arithmetic and then rounded up. Main
statements: rounding up goes to the least whole number that is not below; a count is sufficient if
a smaller one is; and for widths and targets away from the ends of the format the estimate exceeds
no sufficient count by more than the part `2 ^ -49` of it.
-/

namespace OnlineAggregation

open Binary64
open Numeric (NaturalLog wordSize)

/-! ## §1 Whole numbers above an estimate -/

section Counts

variable {x : Float} {r : ℝ}

/-- Beyond 53 bits the numbers of the format are whole. -/
private theorem natFloor_of_large (hr : Representable r) (hlarge : (2 : ℝ) ^ (53 : ℤ) < r) :
    (⌊r⌋₊ : ℝ) = r := by
  obtain ⟨n, e, hn, -, rfl⟩ := hr
  have hn' : (n : ℝ) ≤ 2 ^ (53 : ℤ) := by exact_mod_cast (le_abs_self n).trans hn.le
  have he : 0 ≤ e := by
    by_contra hneg
    have hpow : (2 : ℝ) ^ e ≤ 1 := zpow_le_one_of_nonpos₀ one_le_two (by omega)
    have hbound : (n : ℝ) * 2 ^ e ≤ 2 ^ (53 : ℤ) * 1 :=
      mul_le_mul hn' hpow (two_zpow_pos e).le (two_zpow_pos 53).le
    linarith
  obtain ⟨d, rfl⟩ := Int.eq_ofNat_of_zero_le he
  have hwhole : (n : ℝ) * 2 ^ (d : ℤ) = ((n * 2 ^ d : ℤ) : ℝ) := by
    push_cast
    rfl
  rw [natCast_floor_eq_intCast_floor ((two_zpow_pos 53).le.trans hlarge.le), hwhole,
    Int.floor_intCast]

private theorem reads_natFloor (hx : Reads x r) (hr : 0 ≤ r) :
    Reads (Float.ofNat ⌊r⌋₊) (⌊r⌋₊ : ℝ) := by
  by_cases hsmall : ⌊r⌋₊ ≤ 2 ^ 53
  · exact reads_natCast hsmall
  · have hfloor : ((2 ^ 53 : ℕ) : ℝ) < ⌊r⌋₊ := by exact_mod_cast not_le.mp hsmall
    have hlarge : (2 : ℝ) ^ (53 : ℤ) < r := lt_of_lt_of_le (by exact_mod_cast hfloor)
      (Nat.floor_le hr)
    have hwhole := natFloor_of_large hx.representable hlarge
    have hreads := reads_ofNat ⌊r⌋₊
    rw [hwhole, hx.nearest_eq] at hreads
    rwa [hwhole]

/-- Rounding up goes to the least whole number that is not below. -/
theorem ceilCount_eq (hx : Reads x r) (hr : 0 ≤ r) (hword : r < 2 ^ 64) :
    ceilCount x = ⌈r⌉₊ := by
  have hreads := reads_natFloor hx hr
  rw [ceilCount, hx.toNat_toUInt64 hr hword]
  by_cases hbelow : (⌊r⌋₊ : ℝ) < r
  · rw [if_pos ((hreads.lt_iff hx).mpr (EReal.coe_lt_coe_iff.mpr hbelow))]
    symm
    rw [Nat.ceil_eq_iff (Nat.succ_ne_zero _)]
    exact ⟨hbelow, by exact_mod_cast (Nat.lt_floor_add_one r).le⟩
  · have hwhole : (⌊r⌋₊ : ℝ) = r := le_antisymm (Nat.floor_le hr) (not_lt.mp hbelow)
    rw [if_neg fun h => hbelow (EReal.coe_lt_coe_iff.mp ((hreads.lt_iff hx).mp h)), ← hwhole,
      Nat.floor_natCast, Nat.ceil_natCast]

/-- An estimate is out of reach if it is no number or has no 64-bit count above it. -/
def OutOfReach (estimate : Float) : Prop :=
  ¬ estimate.isFinite ∨ Float.ofNat wordSize ≤ estimate

private theorem reads_wordSize : Reads (Float.ofNat wordSize) ((2 ^ (64 : ℤ) : ℝ)) := by
  refine reads_two_zpow rfl ?_
  change ((2 ^ 64 : ℕ) : ℝ) = _
  norm_num

theorem outOfReach_iff (hx : Reads x r) : OutOfReach x ↔ (2 : ℝ) ^ (64 : ℤ) ≤ r := by
  rw [OutOfReach, hx.isFinite, reads_wordSize.le_iff hx, EReal.coe_le_coe_iff]
  simp

/-- An estimate within reach is rounded up to a count of 64 bits. -/
theorem exists_reads_of_reach (hx : 0.0 ≤ x) (hreach : ¬ OutOfReach x) :
    ∃ r : ℝ, Reads x r ∧ 0 ≤ r ∧ ceilCount x = ⌈r⌉₊ ∧ ⌈r⌉₊ < 2 ^ 64 := by
  have hfinite : x.isFinite = true := not_not.mp fun h => hreach (Or.inl h)
  obtain ⟨r, hr⟩ := isFinite_iff_exists_reads.mp hfinite
  have hnonneg : 0 ≤ r := EReal.coe_nonneg.mp ((reads_zero.le_iff hr).mp hx)
  have hword : r < 2 ^ (64 : ℤ) := not_le.mp (mt (outOfReach_iff hr).mpr hreach)
  refine ⟨r, hr, hnonneg, ceilCount_eq hr hnonneg (by exact_mod_cast hword), ?_⟩
  by_cases hlarge : (2 : ℝ) ^ (53 : ℤ) < r
  · -- The number is whole already.
    rw [← natFloor_of_large hr.representable hlarge] at hword ⊢
    rw [Nat.ceil_natCast]
    exact_mod_cast hword
  · have hceil : ⌈r⌉₊ ≤ 2 ^ 53 := Nat.ceil_le.mpr (by exact_mod_cast not_lt.mp hlarge)
    omega

end Counts

/-! ## §2 Sufficient counts -/

section Plan

variable [NaturalLog]

/-- `n` values from the range are enough: their half-width is at most the target. -/
def Sufficient (confidence : Float) (range : ValueRange) (target : Float) (n : ℕ) : Prop :=
  ∃ e, seenHalfWidth confidence n range = .ok e ∧ e ≤ target

variable {level : ConfidenceLevel} {domain : ValueDomain} {goal : TargetPrecision} {n m : ℕ}

omit [NaturalLog] in
theorem TargetPrecision.exists_reads_value (t : TargetPrecision) :
    ∃ r : ℝ, 0 < r ∧ Reads t.value r := by
  obtain ⟨r, hr⟩ := isFinite_iff_exists_reads.mp t.finite
  refine ⟨r, ?_, hr⟩
  have hpos := mt (hr.le_iff reads_zero).mpr t.positive
  exact EReal.coe_pos.mp (not_le.mp hpos)

theorem sufficient_iff {range : ValueRange} {target : Float} :
    Sufficient level.value range target n ↔
      n ≠ 0 ∧ level.hoeffding n range.width ≤ target := by
  by_cases hn : n = 0
  · rw [hn, Sufficient, seenHalfWidth_zero]
    simp
  · rw [Sufficient, seenHalfWidth_of_ne_zero level hn]
    simp [hn]

/-- A half-width is not NaN, so it is above the target or at most the target. -/
theorem lt_hoeffding_iff (hlog : LogInRange) (hn : 1 ≤ n) (hword : n < 2 ^ 64) :
    goal.value < level.hoeffding n domain.width ↔
      ¬ Sufficient level.value domain.toValueRange goal.value n := by
  obtain ⟨a, ha⟩ := exists_reads (isNaN_eq_false_of_le
    (ConfidenceLevel.hoeffding_nonneg hlog level hn hword domain.width_nonneg)).2
  obtain ⟨t, -, ht⟩ := goal.exists_reads_value
  rw [sufficient_iff, not_and_or, ht.lt_iff ha, ha.le_iff ht, not_le]
  exact (or_iff_right (not_not.mpr (Nat.one_le_iff_ne_zero.mp hn))).symm

/-- More values than enough are enough. -/
theorem Sufficient.mono (hlog : LogInRange)
    (h : Sufficient level.value domain.toValueRange goal.value m) (hmn : m ≤ n)
    (hword : n < 2 ^ 64) : Sufficient level.value domain.toValueRange goal.value n := by
  obtain ⟨hm, hle⟩ := sufficient_iff.mp h
  have hm' : 1 ≤ m := Nat.one_le_iff_ne_zero.mpr hm
  have hle' : level.hoeffding n domain.width ≤ level.hoeffding m domain.width :=
    level.hoeffding_antitone hlog hm' hmn hword domain.width_nonneg
  obtain ⟨a, ha⟩ := exists_reads (isNaN_eq_false_of_le hle').1
  obtain ⟨b, hb⟩ := exists_reads (isNaN_eq_false_of_le hle').2
  obtain ⟨t, -, ht⟩ := goal.exists_reads_value
  refine sufficient_iff.mpr ⟨by omega, (ha.le_iff ht).mpr ?_⟩
  exact ((ha.le_iff hb).mp hle').trans ((hb.le_iff ht).mp hle)

/-! ## §3 The accuracy of the estimate -/

/-- Away from the ends of the format: the target lies between `2 ^ -500` and `2 ^ 500`, and the
width is at most `2 ^ 500`. -/
structure IsOrdinary (width target : Float) : Prop where
  width_le : width ≤ Float.ofBits 0x5f30000000000000
  le_target : Float.ofBits 0x20b0000000000000 ≤ target
  target_le : target ≤ Float.ofBits 0x5f30000000000000

omit [NaturalLog] in
private theorem roundoff_pos : 0 < 1 - unitRoundoff ∧ 0 < 1 + unitRoundoff := by
  norm_num [unitRoundoff]

omit [NaturalLog] in
/-- The square of the factor is the quotient under the root, up to the roundings. -/
private theorem le_factorValue_sq {l : ℝ} (hlow : 1 / 2 ≤ l) (hn : 1 ≤ n)
    (hword : n < 2 ^ 64) :
    l * (1 - unitRoundoff) ^ 3 ≤
      ConfidenceLevel.factorValue l n ^ 2 * (2 * n * (1 + unitRoundoff) ^ 2) := by
  rw [ConfidenceLevel.factorValue_eq]
  obtain ⟨hdown, hup⟩ := roundoff_pos
  have hnormal : ∀ {x : ℝ} {k : ℤ}, 2 ^ k ≤ x → -1022 ≤ k → (2 : ℝ) ^ (-1022 : ℤ) ≤ x :=
    fun hx hk => (zpow_le_zpow_right₀ one_le_two hk).trans hx
  have hcount : (2 : ℝ) ^ (0 : ℤ) ≤ n := by exact_mod_cast hn
  have htwice := ConfidenceLevel.two_zpow_le_twice hn
  have hquotient := ConfidenceLevel.two_zpow_le_quotient hlow hn hword
  have hb_pos := ConfidenceLevel.divisor_pos hn
  set a := rounded n
  set b := rounded (2 * a)
  set c := rounded (l / b)
  have ha_err : a ≤ n * (1 + unitRoundoff) := (rounded_mem (hnormal hcount (by norm_num))).2
  have hb_err : b ≤ 2 * a * (1 + unitRoundoff) := (rounded_mem (hnormal htwice (by norm_num))).2
  have hc_err : l / b * (1 - unitRoundoff) ≤ c := (rounded_mem (hnormal hquotient (by norm_num))).1
  have hc_low : 2 ^ (-66 : ℤ) ≤ c := le_rounded (Representable.two_zpow (by norm_num)) hquotient
  have hc_pos : 0 < c := (two_zpow_pos _).trans_le hc_low
  have hq_err : √c * (1 - unitRoundoff) ≤ rounded √c :=
    (rounded_mem (hnormal (ConfidenceLevel.two_zpow_le_root hc_low) (by norm_num))).1
  -- Squared, the root is gone, and each rounding contributes one factor.
  have hsq : c * (1 - unitRoundoff) ^ 2 ≤ rounded √c ^ 2 := by
    calc c * (1 - unitRoundoff) ^ 2 = (√c * (1 - unitRoundoff)) ^ 2 := by
          rw [mul_pow, Real.sq_sqrt hc_pos.le]
      _ ≤ _ := pow_le_pow_left₀ (mul_nonneg (Real.sqrt_nonneg c) hdown.le) hq_err 2
  calc l * (1 - unitRoundoff) ^ 3
      = l / b * (1 - unitRoundoff) * (1 - unitRoundoff) ^ 2 * b := by
        field_simp
    _ ≤ c * (1 - unitRoundoff) ^ 2 * b := by gcongr
    _ ≤ rounded √c ^ 2 * b := by gcongr
    _ ≤ rounded √c ^ 2 * (2 * (n * (1 + unitRoundoff)) * (1 + unitRoundoff)) := by
        gcongr
        exact hb_err.trans (by gcongr)
    _ = _ := by ring

omit [NaturalLog] in
/-- The relative errors of all roundings together. -/
private theorem roundoff_total :
    (1 + unitRoundoff) ^ 5 ≤ (1 + 2 ^ (-49 : ℤ)) * (1 - unitRoundoff) ^ 7 := by
  norm_num [unitRoundoff]

omit [NaturalLog] in
/-- The quotient that the estimate rounds, against a width and a factor that reach the target. -/
private theorem reached_quotient_le {w t l q : ℝ} (ht : 0 < t) (hw : 0 ≤ w) (hq : 0 ≤ q)
    (hreach : w * q * (1 - unitRoundoff) ≤ t)
    (hfactor : l * (1 - unitRoundoff) ^ 3 ≤ q ^ 2 * (2 * n * (1 + unitRoundoff) ^ 2))
    {p h : ℝ} (hp : p ≤ w * w * (1 + unitRoundoff) * l * (1 + unitRoundoff))
    (hh : 2 * t * (1 - unitRoundoff) * t * (1 - unitRoundoff) ≤ h) :
    p / h * (1 + unitRoundoff) ≤ n * (1 + 2 ^ (-49 : ℤ)) := by
  obtain ⟨hdown, hup⟩ := roundoff_pos
  have hh_pos : 0 < h := lt_of_lt_of_le (by positivity) hh
  have hsq : (w * q * (1 - unitRoundoff)) ^ 2 ≤ t ^ 2 :=
    pow_le_pow_left₀ (by positivity) hreach 2
  -- Seven roundings go down and five go up; multiplied out, no quotient is left to estimate.
  have hproduct : p * (1 + unitRoundoff) * (1 - unitRoundoff) ^ 7 ≤
      n * (1 + unitRoundoff) ^ 5 * h := by
    calc p * (1 + unitRoundoff) * (1 - unitRoundoff) ^ 7
        ≤ w * w * (1 + unitRoundoff) * l * (1 + unitRoundoff) * (1 + unitRoundoff) *
            (1 - unitRoundoff) ^ 7 := by gcongr
      _ = l * (1 - unitRoundoff) ^ 3 * (w ^ 2 * (1 + unitRoundoff) ^ 3 * (1 - unitRoundoff) ^ 4) := by
          ring
      _ ≤ q ^ 2 * (2 * n * (1 + unitRoundoff) ^ 2) *
            (w ^ 2 * (1 + unitRoundoff) ^ 3 * (1 - unitRoundoff) ^ 4) := by gcongr
      _ = (w * q * (1 - unitRoundoff)) ^ 2 *
            (2 * n * (1 + unitRoundoff) ^ 5 * (1 - unitRoundoff) ^ 2) := by ring
      _ ≤ t ^ 2 * (2 * n * (1 + unitRoundoff) ^ 5 * (1 - unitRoundoff) ^ 2) := by gcongr
      _ = n * (1 + unitRoundoff) ^ 5 * (2 * t * (1 - unitRoundoff) * t * (1 - unitRoundoff)) := by
          ring
      _ ≤ n * (1 + unitRoundoff) ^ 5 * h := by gcongr
  rw [div_mul_eq_mul_div, div_le_iff₀ hh_pos]
  have hseven : 0 < (1 - unitRoundoff) ^ 7 := by positivity
  rw [← mul_le_mul_iff_left₀ hseven]
  calc p * (1 + unitRoundoff) * (1 - unitRoundoff) ^ 7 ≤ n * (1 + unitRoundoff) ^ 5 * h := hproduct
    _ ≤ n * ((1 + 2 ^ (-49 : ℤ)) * (1 - unitRoundoff) ^ 7) * h := by
        gcongr
        exact roundoff_total
    _ = _ := by ring

/-- The estimate is the rounded quotient of two numbers that differ from the exact ones by the
roundings; a tiny width makes the dividend the smaller one. -/
private theorem reads_estimatedSamples {width target : Float} {w t l : ℝ}
    (hl : Reads level.logTerm l) (hl_low : 1 / 2 ≤ l) (hl_high : l ≤ 64) (hw : Reads width w)
    (hw_low : 0 ≤ w) (hw_high : w ≤ 2 ^ (500 : ℤ)) (ht : Reads target t)
    (ht_low : 2 ^ (-500 : ℤ) ≤ t) (ht_high : t ≤ 2 ^ (500 : ℤ)) :
    ∃ p h : ℝ, Reads (estimatedSamples level width target) (nearest (p / h)) ∧ 0 ≤ p ∧ 0 < h ∧
      2 * t * (1 - unitRoundoff) * t * (1 - unitRoundoff) ≤ h ∧
      (w ≤ 2 ^ (-510 : ℤ) → p ≤ h) ∧
      (2 ^ (-510 : ℤ) ≤ w → p ≤ w * w * (1 + unitRoundoff) * l * (1 + unitRoundoff)) := by
  obtain ⟨hdown, hup⟩ := roundoff_pos
  have ht_pos : 0 < t := (two_zpow_pos _).trans_le ht_low
  have htwo : (2 : ℝ) ^ (1 : ℤ) = 2 := zpow_one 2
  have hl_low' : (2 : ℝ) ^ (-1 : ℤ) ≤ l := by norm_num; linarith
  have hl_high' : l ≤ 2 ^ (6 : ℤ) := by norm_num; linarith
  have hl_pos : 0 < l := (two_zpow_pos _).trans_le hl_low'
  have hnormal : ∀ k : ℤ, -1022 ≤ k → (2 : ℝ) ^ (-1022 : ℤ) ≤ 2 ^ k :=
    fun k hk => zpow_le_zpow_right₀ one_le_two hk
  have hsmall : ∀ {x : ℝ} {k : ℤ}, 0 ≤ x → x ≤ 2 ^ k → k < 1024 → |x| < overflow := by
    intro x k hx hxk hk
    rw [abs_of_nonneg hx]
    exact hxk.trans_lt (two_zpow_lt_overflow hk)
  -- The divisor is normal.
  have hg_exact : (2 : ℝ) ^ (-499 : ℤ) ≤ 2 * t := two_zpow_le_mul htwo.le ht_low
  obtain ⟨hg_low, hg_high, hg⟩ := (reads_literal_two.mul ht).of_mem_zpow hg_exact
    (mul_le_two_zpow (k := 501) htwo.ge ht_pos.le ht_high)
  have hg_err := (rounded_mem ((hnormal (-499) (by norm_num)).trans hg_exact)).1
  set g := rounded (2 * t)
  have hh_exact : (2 : ℝ) ^ (-999 : ℤ) ≤ g * t := two_zpow_le_mul hg_low ht_low
  obtain ⟨hh_low, -, hh⟩ := (hg.mul ht).of_mem_zpow hh_exact
    (mul_le_two_zpow (k := 1001) hg_high ht_pos.le ht_high)
  have hh_err := (rounded_mem ((hnormal (-999) (by norm_num)).trans hh_exact)).1
  set h := rounded (g * t)
  have hh_pos : 0 < h := (two_zpow_pos _).trans_le hh_low
  -- The dividend may be tiny.
  have hs_nonneg : 0 ≤ rounded (w * w) := rounded_nonneg (mul_nonneg hw_low hw_low)
  have hs_high : rounded (w * w) ≤ 2 ^ (1000 : ℤ) :=
    rounded_le (Representable.two_zpow (by norm_num)) (mul_le_two_zpow hw_high hw_low hw_high)
  have hs := (hw.mul hw).of_nearest (hsmall hs_nonneg hs_high (by norm_num))
  have hp_nonneg : 0 ≤ rounded (rounded (w * w) * l) :=
    rounded_nonneg (mul_nonneg hs_nonneg hl_pos.le)
  have hp_high : rounded (rounded (w * w) * l) ≤ 2 ^ (1006 : ℤ) :=
    rounded_le (Representable.two_zpow (by norm_num)) (mul_le_two_zpow hs_high hl_pos.le hl_high')
  have hp := (hs.mul hl).of_nearest (hsmall hp_nonneg hp_high (by norm_num))
  refine ⟨_, h, hp.div hh hh_pos.ne', hp_nonneg, hh_pos, ?_, ?_, ?_⟩
  · calc 2 * t * (1 - unitRoundoff) * t * (1 - unitRoundoff) ≤ g * t * (1 - unitRoundoff) := by
          gcongr
      _ ≤ h := hh_err
  · intro htiny
    have hs_tiny : rounded (w * w) ≤ 2 ^ (-1020 : ℤ) :=
      rounded_le (Representable.two_zpow (by norm_num)) (mul_le_two_zpow htiny hw_low htiny)
    calc rounded (rounded (w * w) * l) ≤ 2 ^ (-1014 : ℤ) :=
          rounded_le (Representable.two_zpow (by norm_num))
            (mul_le_two_zpow hs_tiny hl_pos.le hl_high')
      _ ≤ 2 ^ (-999 : ℤ) := zpow_le_zpow_right₀ one_le_two (by norm_num)
      _ ≤ h := hh_low
  · intro hlarge
    have hs_exact : (2 : ℝ) ^ (-1020 : ℤ) ≤ w * w := two_zpow_le_mul hlarge hlarge
    have hs_err := (rounded_mem ((hnormal (-1020) (by norm_num)).trans hs_exact)).2
    have hp_exact : (2 : ℝ) ^ (-1021 : ℤ) ≤ rounded (w * w) * l :=
      two_zpow_le_mul (le_rounded (Representable.two_zpow (by norm_num)) hs_exact) hl_low'
    calc rounded (rounded (w * w) * l) ≤ rounded (w * w) * l * (1 + unitRoundoff) :=
          (rounded_mem ((hnormal (-1021) (by norm_num)).trans hp_exact)).2
      _ ≤ w * w * (1 + unitRoundoff) * l * (1 + unitRoundoff) := by gcongr

/-- **The estimate is good** away from the ends of the format: it exceeds no sufficient count by
more than a few roundings. -/
theorem estimatedSamples_le (hlog : LogInRange) (hordinary : IsOrdinary domain.width goal.value)
    (hn : Sufficient level.value domain.toValueRange goal.value n) (hword : n < 2 ^ 64) :
    ∃ r : ℝ, Reads (estimatedSamples level domain.width goal.value) r ∧
      r ≤ n * (1 + 2 ^ (-49 : ℤ)) := by
  obtain ⟨hcount, hreached⟩ := sufficient_iff.mp hn
  have hcount' : (1 : ℝ) ≤ n := by exact_mod_cast Nat.one_le_iff_ne_zero.mpr hcount
  have hbound : 1 ≤ n * (1 + (2 : ℝ) ^ (-49 : ℤ)) := by
    have hplace := two_zpow_pos (-49)
    nlinarith
  obtain ⟨l, hl_low, hl_high, hl⟩ := level.exists_reads_logTerm hlog
  obtain ⟨w, hw_low, hw_high, hw⟩ := exists_reads_of_mem reads_zero
    (reads_of_unpack (k := 500) rfl) domain.width_nonneg hordinary.width_le
  obtain ⟨t, ht_low, ht_high, ht⟩ := exists_reads_of_mem (reads_of_unpack (k := -500) rfl)
    (reads_of_unpack (k := 500) rfl) hordinary.le_target hordinary.target_le
  have ht_pos : 0 < t := (two_zpow_pos _).trans_le ht_low
  obtain ⟨p, h, hestimate, hp, hh, hh_err, htiny, hp_err⟩ :=
    reads_estimatedSamples hl hl_low hl_high hw hw_low hw_high ht ht_low ht_high
  have hone : Representable (1 : ℝ) := by simpa using representable_natCast (k := 1) (by norm_num)
  have hquotient : rounded (p / h) ≤ n * (1 + 2 ^ (-49 : ℤ)) := by
    by_cases hbelow : p / h ≤ 1
    · exact (rounded_le hone hbelow).trans hbound
    -- The width is not tiny, so the half-width for `n` values is normal as well.
    have hlarge : (2 : ℝ) ^ (-510 : ℤ) ≤ w :=
      (not_le.mp fun h' => hbelow ((div_le_one hh).mpr (htiny h'))).le
    obtain ⟨hq_low, hq_high, hq⟩ := ConfidenceLevel.reads_factor hl hl_low hl_high
      (Nat.one_le_iff_ne_zero.mpr hcount) hword
    have hq_pos := (two_zpow_pos (-33)).trans_le hq_low
    have he_exact : (2 : ℝ) ^ (-543 : ℤ) ≤ w * ConfidenceLevel.factorValue l n :=
      two_zpow_le_mul hlarge hq_low
    obtain ⟨-, -, he⟩ := (ConfidenceLevel.reads_hoeffding hw hq).of_mem_zpow he_exact
      (mul_le_two_zpow (k := 503) hw_high hq_pos.le hq_high)
    have hreach : w * ConfidenceLevel.factorValue l n * (1 - unitRoundoff) ≤ t :=
      (rounded_mem ((zpow_le_zpow_right₀ one_le_two (by norm_num)).trans he_exact)).1.trans
        (EReal.coe_le_coe_iff.mp ((he.le_iff ht).mp hreached))
    have hfactor := le_factorValue_sq hl_low (Nat.one_le_iff_ne_zero.mpr hcount) hword
    calc rounded (p / h) ≤ p / h * (1 + unitRoundoff) :=
          (rounded_mem ((zpow_le_one_of_nonpos₀ one_le_two (by norm_num)).trans
            (not_le.mp hbelow).le)).2
      _ ≤ n * (1 + 2 ^ (-49 : ℤ)) :=
          reached_quotient_le ht_pos hw_low hq_pos.le hreach hfactor (hp_err hlarge) hh_err
  refine ⟨_, hestimate.of_nearest ?_, hquotient⟩
  rw [abs_of_nonneg (rounded_nonneg (div_nonneg hp hh.le))]
  have hword' : (n : ℝ) ≤ 2 ^ (64 : ℤ) := by exact_mod_cast hword.le
  calc rounded (p / h) ≤ n * (1 + 2 ^ (-49 : ℤ)) := hquotient
    _ ≤ 2 ^ (65 : ℤ) := mul_le_two_zpow (j := 1) hword' (by positivity) (by norm_num)
    _ < overflow := two_zpow_lt_overflow (by norm_num)

/-- An estimate that is a number is not negative. -/
theorem estimatedSamples_nonneg (hlog : LogInRange)
    (hreach : ¬ OutOfReach (estimatedSamples level domain.width goal.value)) :
    0.0 ≤ estimatedSamples level domain.width goal.value := by
  obtain ⟨l, hlow, -, hl⟩ := level.exists_reads_logTerm hlog
  obtain ⟨t, hpos, ht⟩ := goal.exists_reads_value
  have hnumerator := nonneg_mul (nonneg_mul_self domain.width_nonneg) hl (by linarith)
  have hdenominator := nonneg_mul (nonneg_mul (nonneg_of_reads reads_literal_two (by norm_num)) ht
    hpos) ht hpos
  exact nonneg_of_isFinite_div hnumerator hdenominator (not_not.mp fun h => hreach (Or.inl h))

end Plan

end OnlineAggregation
