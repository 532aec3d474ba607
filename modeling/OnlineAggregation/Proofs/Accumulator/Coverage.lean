import OnlineAggregation.Proofs.Accumulator.Spread
import OnlineAggregation.Proofs.Bound.HalfWidth

/-!
# When the normal coverage is a probability

The normal coverage is looked up in units of the standard error, so there is none without spread.
Whether there is spread is decided on the accumulated squares, after all their roundings. Main
statement: the coverage is a probability if the standard error is positive, and else NaN, which
happens in two ways only: a distance from the mean has overflowed, or the squares are rounded away.
They are whenever all values are equal, but also for values that are next to each other; and they
are not once the first value that differs from those before it is clearly apart from them.
-/

namespace OnlineAggregation

open Binary64
open Numeric (ErrorFunction)

/-! ## §1 Error functions -/

/-- What is assumed of the error function: from zero on it lies between zero and one, and it turns
NaN into NaN. -/
structure ErfInRange [ErrorFunction] : Prop where
  mem_unit : ∀ x : Float, 0.0 ≤ x → 0.0 ≤ Numeric.erf x ∧ Numeric.erf x ≤ 1.0
  nan : ∀ x : Float, x.isNaN = true → (Numeric.erf x).isNaN = true

private theorem reads_literal_half : Reads 0.5 (1 / 2 : ℝ) := by
  have hhalf : Reads 0.5 (2 ^ (-1 : ℤ) : ℝ) := reads_of_unpack rfl
  rwa [show (2 ^ (-1 : ℤ) : ℝ) = 1 / 2 by norm_num] at hhalf

private theorem exists_reads_sqrt_two : ∃ t : ℝ, 0 < t ∧ Reads (Float.sqrt 2.0) t := by
  have hhigh : √2 ≤ 2 := by
    rw [Real.sqrt_le_left zero_le_two]
    norm_num
  obtain ⟨t, ht, -, hroot⟩ := (reads_literal_two.sqrt zero_le_two).exists_of_mem reads_literal_one
    reads_literal_two (Real.one_le_sqrt.mpr one_le_two) hhigh
  exact ⟨t, one_pos.trans_le ht, hroot⟩

namespace Accumulator

/-! ## §2 Coverage and standard error -/

section Spread

variable [ErrorFunction] {a : Accumulator Float} {ε : Float}

omit [ErrorFunction] in
/-- The argument of the error function is not negative, be the standard error infinite. -/
private theorem argument_nonneg (hε : ε.isFinite = true) (hnonneg : 0.0 ≤ ε)
    (hspread : 0.0 < a.stdError) : 0.0 ≤ ε / a.stdError / Float.sqrt 2.0 := by
  obtain ⟨r, hr, hreads⟩ := exists_reads_nonneg hnonneg hε
  obtain ⟨t, ht, hroot⟩ := exists_reads_sqrt_two
  obtain ⟨b, hb⟩ := exists_reads (isNaN_eq_false_of_lt hspread).2
  have hpos : 0 < b := (reads_zero.lt_iff hb).mp hspread
  refine nonneg_div ?_ hroot ht
  rcases nonneg_cases (nonneg_of_reads hb hpos.le) with htop | ⟨s, -, hs⟩
  · exact nonneg_of_reads (hreads.div_top htop) le_rfl
  · obtain rfl : b = s := hb.unique hs
    exact nonneg_div hnonneg hs (EReal.coe_pos.mp hpos)

/-- With a positive standard error the coverage is a probability. -/
theorem normalCoverage_mem_unit (herf : ErfInRange) (hε : ε.isFinite = true) (hnonneg : 0.0 ≤ ε)
    (hspread : 0.0 < a.stdError) :
    0.0 ≤ a.normalCoverage ε ∧ a.normalCoverage ε ≤ 1.0 := by
  have hnot : ¬ a.stdError ≤ 0.0 := by
    obtain ⟨b, hb⟩ := exists_reads (isNaN_eq_false_of_lt hspread).2
    rw [hb.le_iff reads_zero, not_le]
    exact (reads_zero.lt_iff hb).mp hspread
  obtain ⟨hlow, hhigh⟩ := herf.mem_unit _ (argument_nonneg hε hnonneg hspread)
  obtain ⟨q, hq, hq', herf⟩ := exists_reads_of_mem reads_zero reads_literal_one hlow hhigh
  -- Each step goes from one pair of powers of two to the next, and rounding keeps to them.
  obtain ⟨p, hp, hp', hsum⟩ := (reads_literal_one.add herf).exists_of_mem reads_literal_one
    reads_literal_two (by linarith) (by linarith)
  obtain ⟨w, hw, hw', hprobability⟩ := (reads_literal_half.mul hsum).exists_of_mem
    reads_literal_half reads_literal_one (by linarith) (by linarith)
  obtain ⟨d, hd, hd', hdouble⟩ := (reads_literal_two.mul hprobability).exists_of_mem
    reads_literal_one reads_literal_two (by linarith) (by linarith)
  obtain ⟨c, hc, hc', hcoverage⟩ := (hdouble.sub reads_literal_one).exists_of_mem
    reads_zero reads_literal_one (by linarith) (by linarith)
  rw [normalCoverage, if_neg hnot]
  exact ⟨(reads_zero.le_iff hcoverage).mpr (EReal.coe_nonneg.mpr hc),
    (hcoverage.le_iff reads_literal_one).mpr (EReal.coe_le_coe_iff.mpr hc')⟩

/-- Without one it is NaN, whether the standard error is zero or NaN itself. -/
theorem isNaN_normalCoverage (herf : ErfInRange) (hspread : ¬ 0.0 < a.stdError) :
    (a.normalCoverage ε).isNaN = true := by
  rw [normalCoverage]
  split
  · rfl
  · rename_i hnot
    have hnan : a.stdError.isNaN = true := by
      by_contra hnumber
      obtain ⟨b, hb⟩ := exists_reads (Bool.eq_false_iff.mpr hnumber)
      rw [reads_zero.lt_iff hb] at hspread
      rw [hb.le_iff reads_zero] at hnot
      exact hnot (not_lt.mp hspread)
    obtain ⟨t, ht, hroot⟩ := exists_reads_sqrt_two
    have hquotient := isNaN_iff_isLost.mp (isNaN_div_right hnan ε)
    have hargument : (ε / a.stdError / Float.sqrt 2.0).isNaN = true :=
      isNaN_iff_isLost.mpr fun s => (hquotient s).div_pos hroot ht
    rw [isNaN_iff_isLost]
    intro s
    have herf := isNaN_iff_isLost.mp (herf.nan _ hargument) s
    have hprobability := (herf.add_right 1.0).pos_mul reads_literal_half one_half_pos
    exact (hprobability.pos_mul reads_literal_two two_pos).sub_left 1.0

theorem isNaN_normalCoverage_iff (herf : ErfInRange) (hε : ε.isFinite = true)
    (hnonneg : 0.0 ≤ ε) : (a.normalCoverage ε).isNaN = true ↔ ¬ 0.0 < a.stdError := by
  constructor
  · intro hnan hspread
    obtain ⟨hmem, -⟩ := normalCoverage_mem_unit herf hε hnonneg hspread
    rw [(isNaN_eq_false_of_le hmem).2] at hnan
    cases hnan
  · exact isNaN_normalCoverage herf

end Spread

/-! ## §3 All values -/

section Lists

variable {first : Float} {others : List Float}

/-- **When the normal coverage is a probability**: for every list of finite values, fewer than
`2 ^ 64` of them, and every finite half-width that is not negative. It is NaN if and only if a
distance from the mean has overflowed or the standard error is zero, and otherwise it lies between
zero and one. If all values are equal it is NaN. If no distance overflows and the first value that
differs from those before it is clearly apart from them, it is a probability. -/
theorem normalCoverage_isNaN_iff [ErrorFunction] (herf : ErfInRange)
    (hfinite : ∀ v ∈ first :: others, v.isFinite = true) (hword : others.length + 1 < 2 ^ 64)
    {ε : Float} (hε : ε.isFinite = true) (hnonneg : 0.0 ≤ ε) :
    ∃ a, (seed first >>= fun s => s.pushAll others) = .ok a ∧
      let c := a.normalCoverage ε
      let overflows := distancesFinite (single first) others = false
      (c.isNaN = true ↔ overflows ∨ a.stdError ≤ 0.0) ∧
      (c.isNaN = false → 0.0 ≤ c ∧ c ≤ 1.0) ∧
      ((∀ v ∈ others, (first == v) = true) → c.isNaN = true) ∧
      (¬ overflows → SpreadsClearly first others → 0.0 ≤ c ∧ c ≤ 1.0) := by
  refine ⟨ofValues first others, seed_pushAll hfinite, ?_⟩
  intro c overflows
  have hcount : (ofValues first others).count = others.length + 1 := count_ofValues first others
  have hnan : c.isNaN = true ↔ ¬ 0.0 < (ofValues first others).stdError :=
    isNaN_normalCoverage_iff herf hε hnonneg
  have hmem := normalCoverage_mem_unit (a := ofValues first others) herf hε hnonneg
  have hsingle : (single first).count = 1 := rfl
  refine ⟨?_, ?_, ?_, ?_⟩
  · rw [hnan]
    cases hdistances : distancesFinite (single first) others with
    | false =>
      refine iff_of_true ?_ (Or.inl hdistances)
      -- One value has no distance that could overflow, and from two on the spread is asked for.
      have hne : others ≠ [] := by
        rintro rfl
        cases hdistances
      have hpos := List.length_pos_of_ne_nil hne
      exact (isBroken_foldl_insert hdistances (by omega)).not_stdError_pos
        (by change 2 ≤ (ofValues first others).count; omega)
        (by change (ofValues first others).count < 2 ^ 64; omega)
    | true =>
      have hsound := isSound_of_distancesFinite hfinite hword hdistances
      obtain ⟨b, hb⟩ := exists_reads hsound.stdError_not_nan
      have hoverflows : ¬ overflows := by simp [overflows, hdistances]
      rw [or_iff_right hoverflows, reads_zero.lt_iff hb, hb.le_iff reads_zero, not_lt]
  · intro hnumber
    apply hmem
    rwa [← not_not (a := 0.0 < (ofValues first others).stdError), ← hnan, Bool.not_eq_true]
  · intro hequal
    obtain ⟨x, hx⟩ := isFinite_iff_exists_reads.mp (hfinite first List.mem_cons_self)
    have hconstant : (ofValues first others).IsConstant x :=
      (isConstant_single hx).foldl_insert (fun v hv => hx.of_beq (hequal v hv)) (by omega)
    exact hnan.mpr (hconstant.not_stdError_pos (by omega))
  · intro hsteady hspread
    apply hmem
    exact stdError_pos_of_spreadsClearly hfinite hword (Bool.not_eq_false _ ▸ hsteady) hspread

end Lists

/-- An error function that is right at `3 / √2`, where the values 1, 1 and 2 ask for the coverage of
the half-width 1. -/
@[reducible] def erfAtThree : ErrorFunction where
  erf x := if x.isNaN then x else Float.ofBits 0x3fefe9e21e067a4a

theorem erfInRange_erfAtThree : @ErfInRange erfAtThree := by
  refine @ErfInRange.mk erfAtThree ?_ ?_
  · intro x hx
    have hnumber : ¬ x.isNaN = true := Bool.eq_false_iff.mp (isNaN_eq_false_of_le hx).2
    simp only [Numeric.erf, if_neg hnumber]
    decide
  · intro x hx
    simpa only [Numeric.erf, if_pos hx] using hx

theorem clearlyApart_one_two : ClearlyApart 1.0 2.0 := by
  refine ⟨1, 2, reads_literal_one, reads_literal_two, ?_, ?_⟩
  · calc (2 : ℝ) ^ (-470 : ℤ) ≤ 1 := zpow_le_one_of_nonpos₀ one_le_two (by norm_num)
      _ ≤ |2 - 1| := by norm_num
  · norm_num

/-- A value that is repeated, and then one that is twice as large. -/
theorem normalCoverage_isNaN_iff_three :
    ∃ a, (seed 1.0 >>= fun s => s.pushAll [1.0, 2.0]) = .ok a ∧
      @normalCoverage erfAtThree a 1.0 = a.normalCoverage 1.0 ∧
      0.0 ≤ a.normalCoverage 1.0 ∧ a.normalCoverage 1.0 ≤ 1.0 := by
  obtain ⟨a, ha, -, -, -, hspread⟩ := @normalCoverage_isNaN_iff 1.0 [1.0, 2.0] erfAtThree
    erfInRange_erfAtThree (by decide) (by norm_num) 1.0 (by decide) (by decide)
  have hsame : @normalCoverage erfAtThree a 1.0 = a.normalCoverage 1.0 := by
    cases ha
    decide +kernel
  refine ⟨a, ha, hsame, ?_⟩
  rw [← hsame]
  exact hspread (by decide) ⟨[1.0], 2.0, [], rfl, by decide, clearlyApart_one_two⟩

/-- The two numbers after one differ, but their mean is rounded to the second of them: nothing is
left of the squares, and there is no coverage whatever the error function. -/
theorem normalCoverage_isNaN_of_neighbours :
    ∃ first second a, first.isFinite = true ∧ second.isFinite = true ∧ (first == second) = false ∧
      (seed first >>= fun s => s.pushAll [second]) = .ok a ∧
      ∀ erf : ErrorFunction, (@normalCoverage erf a 1.0).isNaN = true := by
  refine ⟨Float.ofBits 0x3ff0000000000001, Float.ofBits 0x3ff0000000000002, _, by decide, by decide,
    by decide, seed_pushAll (by decide), ?_⟩
  intro erf
  have hspread : (ofValues (Float.ofBits 0x3ff0000000000001)
      [Float.ofBits 0x3ff0000000000002]).stdError ≤ 0.0 := by decide +kernel
  rw [normalCoverage, if_pos hspread]
  rfl

end Accumulator

end OnlineAggregation
