import OnlineAggregation.Proofs.Decimal.Binary
import OnlineAggregation.Proofs.Json.FloatText

/-!
# Written numbers are in range

A reader scales the digits by a power of ten and refuses what becomes infinite. Main statements:
for the text of a finite number this does not happen, although the product is rounded twice and the
greatest number is near the end of the format; so the text of a finite number is read as a number.
-/

namespace OnlineAggregation.Json

open Binary64 Decimal

/-! ## §1 Powers of ten -/

section Range

variable {c k : ℕ}

/-- The upper end of the interval of the second greatest finite number. -/
private def secondGreatest : ℕ :=
  (2 ^ 55 - 6) * 2 ^ 969

/-- Powers of ten between those of two. -/
private theorem powers_of_ten :
    10 ^ 288 ≤ 2 ^ 957 ∧ 10 ^ 308 ≤ 3 * 2 ^ 1022 ∧ secondGreatest < 10 ^ 309 := by
  decide +kernel

private theorem powerOfTen_small : ∀ k : Fin 23, powerOfTen k = Float.ofNat (Nat.pow 10 k) := by
  decide +kernel

/-- Up to the last power of ten there is, each stands for the rounded power. -/
theorem reads_powerOfTen (hk : k ≤ 308) : Reads (powerOfTen k) (rounded (10 ^ k : ℕ) : ℝ) := by
  have hreads : Reads (powerOfTen k) (nearest (10 ^ k : ℕ)) := by
    rcases Nat.lt_or_ge 22 k with hlarge | hsmall
    · exact reads_ten_pow hlarge (by omega)
    · rw [show powerOfTen k = Float.ofNat (10 ^ k) from powerOfTen_small ⟨k, by omega⟩]
      exact reads_ofNat _
  refine hreads.of_nearest ?_
  have hbound : ((10 ^ k : ℕ) : ℝ) ≤ (3 : ℤ) * 2 ^ (1022 : ℤ) := by
    have hnat : 10 ^ k ≤ 3 * 2 ^ 1022 :=
      (pow_le_pow_right₀ (by norm_num) hk).trans powers_of_ten.2.1
    refine (Nat.cast_le.mpr hnat).trans_eq ?_
    rw [Nat.cast_mul, Nat.cast_pow, ← zpow_natCast]
    simp only [Nat.cast_ofNat, Int.cast_ofNat]
  rw [abs_of_nonneg (rounded_nonneg (Nat.cast_nonneg _))]
  calc rounded (10 ^ k : ℕ) ≤ (3 : ℤ) * 2 ^ (1022 : ℤ) :=
        rounded_le (Representable.of_le (by norm_num) (by norm_num)) hbound
    _ < overflow := by
      rw [overflow, show (1024 : ℤ) = 2 + 1022 by norm_num, zpow_add₀ two_ne_zero]
      exact mul_lt_mul_of_pos_right (by norm_num) (two_zpow_pos _)

-- One product for each of the greatest powers of ten.
private theorem products_finite : ∀ i : Fin 20,
    (Float.ofNat (min (Nat.pow 2 63) (secondGreatest / 10 ^ (289 + (i : ℕ)))) *
      powerOfTen (289 + i)).isFinite = true := by
  decide +kernel

private theorem greatest_finite :
    shortest ⟨2 ^ 53 - 1, 971⟩ .toEven = ⟨17976931348623157, 292⟩ ∧
      (Float.ofNat 17976931348623157 * powerOfTen 292).isFinite = true := by
  decide +kernel

theorem reads_coefficient (hc : c ≤ 2 ^ 63) :
    Reads (Float.ofNat c) (rounded c : ℝ) ∧ rounded c ≤ 2 ^ (63 : ℤ) := by
  have hle : rounded c ≤ 2 ^ (63 : ℤ) :=
    rounded_le (Representable.two_zpow (by norm_num)) (by exact_mod_cast hc)
  refine ⟨(reads_ofNat c).of_nearest ?_, hle⟩
  rw [abs_of_nonneg (rounded_nonneg (Nat.cast_nonneg c))]
  exact hle.trans_lt (two_zpow_lt_overflow (by norm_num))

/-- A product with a smaller count is finite if the one with the larger is. -/
private theorem isFinite_mul_of_le {b : ℕ} (hcb : c ≤ b) (hb : b ≤ 2 ^ 63) (hk : k ≤ 308)
    (h : (Float.ofNat b * powerOfTen k).isFinite = true) :
    (Float.ofNat c * powerOfTen k).isFinite = true := by
  have hpower := reads_powerOfTen hk
  have hnonneg : 0 ≤ rounded (10 ^ k : ℕ) := rounded_nonneg (Nat.cast_nonneg _)
  have hsmall := (reads_coefficient (hcb.trans hb)).1.mul hpower
  have hlarge := (reads_coefficient hb).1.mul hpower
  have hc_nonneg : 0 ≤ rounded c := rounded_nonneg (Nat.cast_nonneg c)
  have hmono : rounded c * rounded (10 ^ k : ℕ) ≤ rounded b * rounded (10 ^ k : ℕ) :=
    mul_le_mul_of_nonneg_right (rounded_mono (Nat.cast_le.mpr hcb)) hnonneg
  rw [hlarge.isFinite_nearest_iff] at h
  rw [hsmall.isFinite_nearest_iff]
  refine lt_of_le_of_lt ?_ h
  rw [abs_of_nonneg (rounded_nonneg (mul_nonneg hc_nonneg hnonneg))]
  exact (rounded_mono hmono).trans (le_abs_self _)

/-- Below the upper end of the second greatest interval no product overflows. -/
private theorem isFinite_mul_powerOfTen (hc : c < 2 ^ 63) (hk : k ≤ 308)
    (hbelow : c * 10 ^ k ≤ secondGreatest) : (Float.ofNat c * powerOfTen k).isFinite = true := by
  rcases Nat.lt_or_ge k 289 with hsmall | hlarge
  · -- Small powers leave room for every coefficient of 63 bits.
    have hpower : rounded (10 ^ k : ℕ) ≤ 2 ^ (957 : ℤ) := by
      apply rounded_le (Representable.two_zpow (by norm_num))
      have hnat : 10 ^ k ≤ 2 ^ 957 :=
        (pow_le_pow_right₀ (by norm_num) (by omega : k ≤ 288)).trans powers_of_ten.1
      exact_mod_cast hnat
    have hpower_nonneg : 0 ≤ rounded (10 ^ k : ℕ) := rounded_nonneg (Nat.cast_nonneg _)
    obtain ⟨hreads, hword⟩ := reads_coefficient hc.le
    have hword_nonneg : 0 ≤ rounded c := rounded_nonneg (Nat.cast_nonneg c)
    rw [(hreads.mul (reads_powerOfTen hk)).isFinite_nearest_iff,
      abs_of_nonneg (rounded_nonneg (mul_nonneg hword_nonneg hpower_nonneg))]
    calc rounded (rounded c * rounded (10 ^ k : ℕ)) ≤ 2 ^ (1020 : ℤ) :=
          rounded_le (Representable.two_zpow (by norm_num))
            (mul_le_two_zpow hword hpower_nonneg hpower)
      _ < overflow := two_zpow_lt_overflow (by norm_num)
  · obtain ⟨i, rfl⟩ := Nat.exists_eq_add_of_le hlarge
    have hpower : 0 < 10 ^ (289 + i) := Nat.pow_pos (by norm_num)
    have hquotient : c ≤ secondGreatest / 10 ^ (289 + i) := (Nat.le_div_iff_mul_le hpower).mpr hbelow
    exact isFinite_mul_of_le (le_min hc.le hquotient) (min_le_left _ _) hk
      (products_finite ⟨i, by omega⟩)

end Range

/-! ## §2 What was written is in range -/

section Value

variable {negative : Bool} {v : Magnitude} {rest : List Char}

private theorem scaleBy_of_neg {e : ℤ} (he : e < 0) (fuel : ℕ) (f : Float) :
    ∃ y, scaleBy fuel f e = .ok y := by
  induction fuel generalizing f e with
  | zero =>
    unfold scaleBy
    split
    · rw [if_neg (by omega)]
      exact ⟨_, rfl⟩
    · split
      · exact ⟨_, rfl⟩
      · rw [if_neg (by omega)]
        exact ⟨_, rfl⟩
  | succ fuel ih =>
    unfold scaleBy
    split
    · rw [if_neg (by omega)]
      exact ⟨_, rfl⟩
    · split
      · exact ⟨_, rfl⟩
      · rw [if_neg (by omega)]
        exact ih (by omega) _

private theorem decimalValue_of_neg {c : ℕ} {e : ℤ} (he : e < 0) :
    ∃ y, decimalValue negative c e = .ok y := by
  obtain ⟨y, hy⟩ := scaleBy_of_neg he e.natAbs (Float.ofNat c)
  rw [decimalValue, hy]
  exact ⟨_, rfl⟩

private theorem decimalValue_of_finite {c k : ℕ} (hk : k ≤ 308)
    (h : (Float.ofNat c * powerOfTen k).isFinite = true) :
    ∃ y, decimalValue negative c k = .ok y := by
  have hinf : (Float.ofNat c * powerOfTen k).isInf = false := by
    by_contra hinf
    rw [Bool.not_eq_false] at hinf
    have hnot := isFinite_eq_false_iff.mpr (Or.inr hinf)
    rw [h] at hnot
    cases hnot
  have hscaled : scaleBy (k : ℤ).natAbs (Float.ofNat c) k = .ok (Float.ofNat c * powerOfTen k) := by
    unfold scaleBy
    rw [if_pos (by omega), if_pos (by omega), Int.natAbs_natCast]
    dsimp only
    rw [hinf]
    rfl
  rw [decimalValue, hscaled]
  exact ⟨_, rfl⟩

/-- The interval of every other number ends where that of the second greatest one does. -/
private theorem upper_le_secondGreatest (hmantissa : v.mantissa < 2 ^ 53)
    (hmost : v.exponent ≤ 971) (hv : v ≠ ⟨2 ^ 53 - 1, 971⟩) :
    (4 * (v.mantissa : ℝ) + 2) * 2 ^ (v.exponent - 2) ≤ (2 ^ 55 - 6) * 2 ^ (969 : ℤ) := by
  have hpow : (0 : ℝ) < 2 ^ (v.exponent - 2) := two_zpow_pos _
  rcases eq_or_lt_of_le hmost with hlast | hbelow
  · -- At the last exponent the mantissa is not the greatest one.
    have hmantissa' : v.mantissa ≤ 2 ^ 53 - 2 := by
      have hne : v.mantissa ≠ 2 ^ 53 - 1 := by
        intro heq
        apply hv
        cases v
        simp_all
      omega
    have hcast : (v.mantissa : ℝ) ≤ 2 ^ 53 - 2 := by
      have hcast : (v.mantissa : ℝ) ≤ ((2 ^ 53 - 2 : ℕ) : ℝ) := Nat.cast_le.mpr hmantissa'
      norm_num at hcast ⊢
      exact hcast
    rw [hlast]
    exact mul_le_mul_of_nonneg_right (by linarith) (two_zpow_pos _).le
  · have hcast : (v.mantissa : ℝ) < 2 ^ 53 := by exact_mod_cast hmantissa
    calc (4 * (v.mantissa : ℝ) + 2) * 2 ^ (v.exponent - 2)
        ≤ (2 ^ 55 + 2) * 2 ^ (968 : ℤ) := by
          apply mul_le_mul (by linarith) _ hpow.le (by norm_num)
          exact zpow_le_zpow_right₀ one_le_two (by omega)
      _ ≤ (2 ^ 55 - 6) * 2 * 2 ^ (968 : ℤ) := by
          apply mul_le_mul_of_nonneg_right (by norm_num) (two_zpow_pos _).le
      _ = (2 ^ 55 - 6) * 2 ^ (969 : ℤ) := by
          rw [show (969 : ℤ) = 1 + 968 by norm_num, zpow_add₀ two_ne_zero, zpow_one]
          ring

/-- **Nothing written is out of range**: the digits of a finite number have a value. -/
theorem exists_decimalValue (hmantissa : v.mantissa < 2 ^ 53) (hleast : -1074 ≤ v.exponent)
    (hmost : v.exponent ≤ 971) :
    ∃ y, decimalValue negative (asRead (shortest v .toEven)).coefficient
      (asRead (shortest v .toEven)).exponent = .ok y := by
  have hfits := shortest_fits hmantissa hleast hmost .toEven
  set s := shortest v .toEven with hs
  rw [asRead]
  split
  · exact decimalValue_of_neg (by norm_num)
  by_cases hneg : s.exponent < 0
  · exact decimalValue_of_neg hneg
  obtain ⟨k, hk⟩ := Int.eq_ofNat_of_zero_le (not_lt.mp hneg)
  rw [hk]
  by_cases hv : v = ⟨2 ^ 53 - 1, 971⟩
  · -- The greatest number is looked at by itself, since its interval reaches beyond the format.
    obtain ⟨hgreatest, hfinite⟩ := greatest_finite
    rw [hv, hgreatest] at hs
    rw [hs] at hk ⊢
    obtain rfl : 292 = k := Int.ofNat.inj hk
    exact decimalValue_of_finite (by norm_num) hfinite
  · have hbelow := hfits.le_upper.trans (upper_le_secondGreatest hmantissa hmost hv)
    have hnat : s.coefficient * 10 ^ k ≤ secondGreatest := by
      have hcast : ((secondGreatest : ℕ) : ℝ) = (2 ^ 55 - 6) * 2 ^ (969 : ℤ) := by
        rw [secondGreatest, Nat.cast_mul, Nat.cast_sub (by norm_num), Nat.cast_pow, Nat.cast_pow,
          ← zpow_natCast ((2 : ℕ) : ℝ) 969]
        simp only [Nat.cast_ofNat]
      rw [hk, zpow_natCast, ← hcast] at hbelow
      exact_mod_cast hbelow
    have hsmall : k ≤ 308 := by
      by_contra hlarge
      have hcoefficient : 1 ≤ s.coefficient := by
        rw [Nat.one_le_iff_ne_zero]
        intro hzero
        have hexponent := hfits.zero_exponent hzero
        omega
      obtain ⟨n, hn, hfar⟩ : ∃ n, n = 309 ∧ secondGreatest < 10 ^ n :=
        ⟨_, rfl, powers_of_ten.2.2⟩
      have hten : 10 ^ n ≤ 10 ^ k := Nat.pow_le_pow_right (by norm_num) (by omega)
      have hproduct : 10 ^ k ≤ s.coefficient * 10 ^ k := Nat.le_mul_of_pos_left _ hcoefficient
      exact absurd (hten.trans (hproduct.trans hnat)) (not_le.mpr hfar)
    exact decimalValue_of_finite hsmall (isFinite_mul_powerOfTen hfits.coefficient_lt hsmall hnat)

end Value

/-! ## §3 Texts of numbers -/

/-- The number that is read from the text of a finite number. -/
def reread (x : Float) : Float :=
  match Binary.ofFloat x with
  | .finite negative size =>
    let s := asRead (shortest size .toEven)
    (decimalValue negative s.coefficient s.exponent).toOption.getD x
  | _ => x

/-- **Written numbers are read**: after its sign, the text of a finite number is a literal, and it
stands for a number. -/
theorem literalValue_write {x : Float} (hx : x.isFinite = true) :
    ∃ (negative : Bool) (digits : List Char),
      (Layout.json.write x).toList = (if negative then ['-'] else []) ++ digits ∧
        IsLiteral digits ∧ literalValue negative digits = .ok (.float (reread x)) := by
  obtain ⟨negative, size, hsize, hmantissa, hleast, hmost⟩ := Binary.ofFloat_of_isFinite hx
  obtain ⟨y, hy⟩ := @exists_decimalValue negative size hmantissa hleast hmost
  have hfits := shortest_fits hmantissa hleast hmost .toEven
  refine ⟨negative, (unsigned (shortest size .toEven)).toList, ?_, isLiteral_unsigned hfits, ?_⟩
  · rw [write_of_finite hsize, String.toList_append]
    cases negative <;> rfl
  · have hreread : reread x = y := by
      rw [reread, hsize]
      dsimp only
      rw [hy]
      rfl
    rw [literalValue, ← List.append_nil (String.toList _), readNumber_unsigned hfits ends_nil, hy,
      hreread]
    rfl

/-- What is no finite number is written as `null`. -/
theorem write_of_not_isFinite {x : Float} (hx : x.isFinite = false) :
    Layout.json.write x = "null" := by
  rcases Binary.ofFloat_of_not_isFinite hx with h | ⟨negative, h⟩ <;> rw [Layout.write, h] <;> rfl

end OnlineAggregation.Json
