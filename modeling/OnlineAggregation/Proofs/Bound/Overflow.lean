import OnlineAggregation.Proofs.Bound.HalfWidth

/-!
# Half-widths that leave the format

A half-width rests on a range and a count. Main statements: if the ends of the range are finite and
in order, the half-width is finite exactly if neither the width of the range nor the product with
the factor overflows; a width of at most `2 ^ 1020` is safe at every level and for every count.
-/

namespace OnlineAggregation

open Binary64
open Numeric (NaturalLog)

/-! ## §1 Ranges and counts that are checked -/

/-- The ends are finite and in order, and the count is one of 64 bits and not zero. -/
structure IsSolid (r : ValueRange) (n : ℕ) : Prop where
  lower_finite : r.lower.isFinite = true
  upper_finite : r.upper.isFinite = true
  ordered : r.lower ≤ r.upper
  count_pos : 1 ≤ n
  count_word : n < 2 ^ 64

theorem ValueDomain.lower_le_upper (d : ValueDomain) : d.lower ≤ d.upper := by
  obtain ⟨l, hl⟩ := isFinite_iff_exists_reads.mp d.lower_finite
  obtain ⟨u, hu⟩ := isFinite_iff_exists_reads.mp d.upper_finite
  rw [hl.le_iff hu]
  exact not_lt.mp (mt (hu.lt_iff hl).mpr d.ordered)

theorem ValueDomain.isSolid (d : ValueDomain) {n : ℕ} (hn : 1 ≤ n) (hword : n < 2 ^ 64) :
    IsSolid d.toValueRange n :=
  ⟨d.lower_finite, d.upper_finite, d.lower_le_upper, hn, hword⟩

/-! ## §2 When a half-width overflows -/

variable [NaturalLog]

/-- The half-width leaves the format: either the width does already, or its product with the
factor. -/
def ConfidenceLevel.Overflows (c : ConfidenceLevel) (n : ℕ) (r : ValueRange) : Prop :=
  ∃ l u q : ℝ, Reads r.lower l ∧ Reads r.upper u ∧ Reads (c.factor n) q ∧
    (overflow ≤ rounded (u - l) ∨ overflow ≤ rounded (rounded (u - l) * q))

/-- The width `2 ^ 1020`, about `1.1e307`. -/
def safeWidth : Float :=
  Float.ofBits 0x7fb0000000000000

omit [NaturalLog] in
private theorem reads_safeWidth : Reads safeWidth ((2 ^ (1020 : ℤ) : ℝ)) :=
  reads_of_unpack rfl

namespace IsSolid

variable {r : ValueRange} {n : ℕ}

omit [NaturalLog] in
/-- The width stands for the distance of the ends, rounded. -/
theorem exists_reads_ends (h : IsSolid r n) :
    ∃ l u : ℝ, l ≤ u ∧ Reads r.lower l ∧ Reads r.upper u ∧ Reads r.width (nearest (u - l)) := by
  obtain ⟨l, hl⟩ := isFinite_iff_exists_reads.mp h.lower_finite
  obtain ⟨u, hu⟩ := isFinite_iff_exists_reads.mp h.upper_finite
  exact ⟨l, u, EReal.coe_le_coe_iff.mp ((hl.le_iff hu).mp h.ordered), hl, hu, hu.sub hl⟩

omit [NaturalLog] in
theorem width_nonneg (h : IsSolid r n) : 0.0 ≤ r.width := by
  obtain ⟨l, u, hlu, -, -, hwidth⟩ := h.exists_reads_ends
  exact nonneg_of_reads hwidth (nearest_nonneg (sub_nonneg.mpr hlu))

theorem isFinite_hoeffding_iff (h : IsSolid r n) (hlog : LogInRange) (c : ConfidenceLevel) :
    (c.hoeffding n r.width).isFinite = true ↔ ¬ c.Overflows n r := by
  obtain ⟨l, u, hlu, hl, hu, hwidth⟩ := h.exists_reads_ends
  obtain ⟨q, hpos, -, hq⟩ := ConfidenceLevel.exists_reads_factor hlog c h.count_pos h.count_word
  -- The three numbers are settled by the range and the count.
  have hoverflows : c.Overflows n r ↔
      overflow ≤ rounded (u - l) ∨ overflow ≤ rounded (rounded (u - l) * q) := by
    constructor
    · rintro ⟨l', u', q', hl', hu', hq', hlarge⟩
      obtain rfl := EReal.coe_eq_coe_iff.mp (hl.unique hl')
      obtain rfl := EReal.coe_eq_coe_iff.mp (hu.unique hu')
      obtain rfl := EReal.coe_eq_coe_iff.mp (hq.unique hq')
      exact hlarge
    · exact fun hlarge => ⟨l, u, q, hl, hu, hq, hlarge⟩
  have hdistance : 0 ≤ rounded (u - l) := rounded_nonneg (sub_nonneg.mpr hlu)
  rw [hoverflows, not_or, not_le, not_le]
  by_cases hlarge : overflow ≤ rounded (u - l)
  · rw [nearest_of_le hlarge] at hwidth
    have htop := ConfidenceLevel.reads_hoeffding_top hwidth hq hpos
    refine iff_of_false ?_ fun hsmall => absurd hlarge (not_le.mpr hsmall.1)
    intro hfinite
    obtain ⟨e, he⟩ := isFinite_iff_exists_reads.mp hfinite
    exact EReal.coe_ne_top e (he.unique htop)
  · have hsmall : |rounded (u - l)| < overflow := by
      rw [abs_of_nonneg hdistance]
      exact not_le.mp hlarge
    rw [ConfidenceLevel.isFinite_hoeffding_iff hdistance (hwidth.of_nearest hsmall) hq hpos]
    exact ⟨fun hproduct => ⟨not_le.mp hlarge, hproduct⟩, And.right⟩

/-- The factor is at most 8, so a safe width leaves room for it. -/
theorem isFinite_of_width_le (h : IsSolid r n) (hlog : LogInRange) (c : ConfidenceLevel)
    (hsafe : r.width ≤ safeWidth) : (c.hoeffding n r.width).isFinite = true := by
  obtain ⟨q, hpos, hq', hq⟩ := ConfidenceLevel.exists_reads_factor hlog c h.count_pos h.count_word
  obtain ⟨w, hw, hw', hwidth⟩ := exists_reads_of_mem reads_zero reads_safeWidth h.width_nonneg hsafe
  rw [ConfidenceLevel.isFinite_hoeffding_iff hw hwidth hq hpos]
  have hproduct : w * q ≤ (2 : ℝ) ^ (1023 : ℤ) := by
    calc w * q ≤ 2 ^ (1020 : ℤ) * 2 ^ (3 : ℤ) :=
          mul_le_mul hw' hq' hpos.le (two_zpow_pos 1020).le
      _ = 2 ^ (1023 : ℤ) := by rw [← zpow_add₀ two_ne_zero]; norm_num
  exact (rounded_le (Representable.two_zpow (by norm_num)) hproduct).trans_lt
    (two_zpow_lt_overflow (by norm_num))

end IsSolid

omit [NaturalLog] in
theorem ValueDomain.width_nonneg (d : ValueDomain) : 0.0 ≤ d.width :=
  (d.isSolid le_rfl (by norm_num)).width_nonneg

end OnlineAggregation
