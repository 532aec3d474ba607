import OnlineAggregation.Proofs.Decimal.Binary
import OnlineAggregation.Proofs.Decimal.Shortest

/-!
# Shortest decimals and rounding

The search for the shortest decimal knows the numbers that round to the given one as an interval of
whole numbers. Main statements: on the real line the interval is what rounding says it is; so the
number nearest to a shortest decimal is the one that it was written for.
-/

namespace OnlineAggregation.Decimal

open Binary64

/-! ## §1 Mantissas -/

/-- Rounding finds the mantissa that is less than half of the last place away, or just half of it
and even. -/
theorem rounded_eq_of_mantissa {x : ℝ} {n p : ℤ} (hplace : lastPlace x = p)
    (hnear : |x - n * 2 ^ p| ≤ 1 / 2 * 2 ^ p) (htie : ¬ Even n → |x - n * 2 ^ p| < 1 / 2 * 2 ^ p) :
    rounded x = n * 2 ^ p := by
  have hpow := two_zpow_pos p
  have hscale : |x / 2 ^ p - n| = |x - n * 2 ^ p| / 2 ^ p := by
    rw [← abs_of_pos hpow, ← abs_div, abs_of_pos hpow, sub_div, mul_div_cancel_right₀ _ hpow.ne']
  rw [rounded, hplace, nearestEven_eq]
  · rwa [hscale, div_le_iff₀ hpow]
  · intro hodd
    rw [hscale, div_lt_iff₀ hpow]
    exact htie hodd

namespace Magnitude

variable {v : Magnitude} {x : ℝ}

/-- Powers of two above the last bit, in quarters of it. -/
private theorem two_zpow_eq_quarters (e : ℤ) (n : ℕ) :
    (2 : ℝ) ^ (e + n) = 2 ^ (n + 2) * 2 ^ (e - 2) := by
  rw [← zpow_natCast, ← zpow_add₀ two_ne_zero]
  congr 1
  push_cast
  ring

private theorem isStepDown_iff :
    v.isStepDown = true ↔ v.mantissa = 2 ^ 52 ∧ -1074 < v.exponent := by
  rw [isStepDown, Bool.and_eq_true, decide_eq_true_eq, decide_eq_true_eq]
  exact Iff.rfl

/-! ## §2 The two binades -/

/-- In the binade of `v` the last bit of `v` is the last place. -/
private theorem Covers.rounded_of_binade (h : v.Covers x) (hv : v.IsCanonical)
    (hpos : 0 < x) (hlead : 2 ^ (v.exponent + (52 : ℕ)) ≤ x ∨ v.exponent = -1074) :
    rounded x = v.value := by
  have hunit := two_zpow_pos (v.exponent - 2)
  have hmantissa : (v.mantissa : ℝ) + 1 ≤ 2 ^ 53 := by exact_mod_cast hv.mantissa_lt
  have hplace : lastPlace x = v.exponent := by
    refine lastPlace_eq hv.least_le ?_ ?_
    · rw [abs_of_pos hpos, show (53 : ℤ) = (53 : ℕ) from rfl, two_zpow_eq_quarters]
      refine lt_of_le_of_lt h.le_upper (mul_lt_mul_of_pos_right ?_ hunit)
      rw [pow_add]
      linarith
    · rw [abs_of_pos hpos]
      exact hlead.imp id (⟨·, hpos.ne'⟩)
  -- In quarters of the last bit the reach is two, which is half of it, or less.
  have hreach : (v.reach : ℝ) * 2 ^ (v.exponent - 2) ≤ 2 * 2 ^ (v.exponent - 2) := by
    gcongr
    exact_mod_cast v.reach_mem.2
  have hwhole := (two_zpow_quarters v.exponent).2
  have hvalue : ((v.mantissa : ℤ) : ℝ) * 2 ^ v.exponent = v.value := by
    rw [value_eq, Int.cast_natCast]
  rw [← hvalue]
  apply rounded_eq_of_mantissa hplace
  · rw [hwhole, Int.cast_natCast, abs_le]
    have hbelow := h.lower_le
    have habove := h.le_upper
    constructor <;> linarith
  · intro hodd
    have hodd' : v.mantissa % 2 = 1 := by
      rw [Int.even_iff] at hodd
      omega
    obtain ⟨hbelow, habove⟩ := h.strict hodd'
    rw [hwhole, Int.cast_natCast, abs_lt]
    constructor <;> linarith

/-- Below a power of two the last place is half of its last bit. -/
private theorem Covers.rounded_of_step (h : v.Covers x) (hdown : v.isStepDown = true)
    (hlt : x < 2 ^ (v.exponent + (52 : ℕ))) (hpos : 0 < x) : rounded x = v.value := by
  obtain ⟨hmantissa, hexponent⟩ := isStepDown_iff.mp hdown
  have hbelow := h.lower_le
  rw [reach, if_pos hdown, hmantissa] at hbelow
  rw [two_zpow_eq_quarters] at hlt
  have hunit := two_zpow_pos (v.exponent - 2)
  have hplace : lastPlace x = v.exponent - 1 := by
    refine lastPlace_eq (by omega) ?_ (Or.inl ?_)
    · rw [abs_of_pos hpos, show v.exponent - 1 + 53 = v.exponent + (52 : ℕ) by push_cast; ring,
        two_zpow_eq_quarters]
      exact hlt
    · rw [abs_of_pos hpos, show v.exponent - 1 + 52 = v.exponent + (51 : ℕ) by push_cast; ring,
        two_zpow_eq_quarters]
      refine le_trans (mul_le_mul_of_nonneg_right ?_ hunit.le) hbelow
      norm_num
  -- There the number has the mantissa `2 ^ 53`, so that a tie is for it.
  have hhalf := (two_zpow_quarters v.exponent).1
  have hvalue : ((2 ^ 53 : ℤ) : ℝ) * 2 ^ (v.exponent - 1) = v.value := by
    rw [value_eq, hmantissa, hhalf, (two_zpow_quarters v.exponent).2]
    push_cast
    ring
  rw [← hvalue]
  apply rounded_eq_of_mantissa hplace
  · rw [hhalf, abs_le]
    rw [pow_add] at hlt
    push_cast at hbelow ⊢
    constructor <;> linarith
  · exact fun hodd => absurd (by decide : Even (2 ^ 53 : ℤ)) hodd

/-- **The interval is what rounds to the number**. -/
theorem Covers.rounded_eq (h : v.Covers x) (hv : v.IsCanonical) (hne : v.mantissa ≠ 0) :
    rounded x = v.value := by
  have hpos := h.pos hne
  by_cases hlead : 2 ^ (v.exponent + (52 : ℕ)) ≤ x ∨ v.exponent = -1074
  · exact h.rounded_of_binade hv hpos hlead
  · rw [not_or, not_le] at hlead
    obtain ⟨hlt, hexponent⟩ := hlead
    -- Only the interval of a power of two reaches into the binade below.
    have hdown : v.isStepDown = true := by
      rw [isStepDown_iff]
      refine ⟨le_antisymm ?_ (hv.lead.resolve_right hexponent), ?_⟩
      · by_contra hlarge
        have hbelow := h.lower_le
        rw [two_zpow_eq_quarters] at hlt
        have hmantissa : (2 : ℝ) ^ 52 + 1 ≤ v.mantissa := by exact_mod_cast not_le.mp hlarge
        have hreach : (v.reach : ℝ) ≤ 2 := by exact_mod_cast v.reach_mem.2
        have hlow : (2 : ℝ) ^ (52 + 2) ≤ 4 * v.mantissa - v.reach := by
          rw [pow_add]
          linarith
        have hunit := two_zpow_pos (v.exponent - 2)
        exact absurd ((mul_le_mul_of_nonneg_right hlow hunit.le).trans hbelow) (not_le.mpr hlt)
      · exact lt_of_le_of_ne hv.least_le (Ne.symm hexponent)
    exact h.rounded_of_step hdown hlt hpos

end Magnitude

/-! ## §3 Shortest decimals -/

/-- **The shortest decimal reads back**: of all numbers of the format the nearest to it is the one
that it was written for. -/
theorem rounded_shortest {v : Magnitude} (hv : v.IsCanonical) (tie : Tie) :
    rounded ((shortest v tie).coefficient * 10 ^ (shortest v tie).exponent) = v.value := by
  by_cases hne : v.mantissa = 0
  · rw [shortest_of_zero hne, Nat.cast_zero, zero_mul, rounded_zero, v.value_eq_zero_iff.mpr hne]
  · exact (covers_shortest hv.mantissa_lt hv.least_le hv.le_greatest hne tie).rounded_eq hv hne

end OnlineAggregation.Decimal
