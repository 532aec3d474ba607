import OnlineAggregation.Proofs.Json.FloatRange

/-!
# How far a number moves

A number that is written and read goes through its shortest decimal and then through two or three
rounded operations, so it need not come back. Main statements: it moves by at most `2 ^ -49` of
itself and a few of the least places, it stays on its side of zero, and two numbers stay in order if
they are equal or far enough apart. Next to one, where a confidence has to stay below, exactly the
last number before it is moved across.
-/

namespace OnlineAggregation.Json

open Binary64 Decimal

/-! ## §1 Error budgets -/

/-- `y` is `x` up to `n` relative roundings and `k` halves of the least place. -/
def Near (n k : ℕ) (x y : ℝ) : Prop :=
  |y - x| ≤ n * unitRoundoff * x + k * (2 : ℕ) ^ (-1075 : ℤ)

namespace Near

variable {n k m : ℕ} {x y p q : ℝ}

theorem iff_le : Near n k x y ↔ |y - x| ≤ n * unitRoundoff * x + k * 2 ^ (-1075 : ℤ) :=
  Iff.rfl

private theorem unitRoundoff_pos : 0 < unitRoundoff :=
  two_zpow_pos _

/-- A few roundings of a rounding are less than one. -/
private theorem mul_unitRoundoff_le (hn : n ≤ 1000) : n * unitRoundoff ≤ 1 / 4 := by
  have hcast : (n : ℝ) ≤ 1000 := by exact_mod_cast hn
  calc n * unitRoundoff ≤ 1000 * unitRoundoff := by gcongr; exact unitRoundoff_pos.le
    _ ≤ 1 / 4 := by norm_num [unitRoundoff]

theorem mono {n' k' : ℕ} (h : Near n k x y) (hx : 0 ≤ x) (hn : n ≤ n') (hk : k ≤ k') :
    Near n' k' x y := by
  have hu := unitRoundoff_pos.le
  have hleast := (two_zpow_pos (-1075)).le
  refine h.trans ?_
  gcongr

/-- Rounding once more. -/
theorem rounded (h : Near n k x y) (hx : 0 ≤ x) (hy : 0 ≤ y) (hn : n ≤ 1000) :
    Near (n + 2) (2 * k + 1) x (rounded y) := by
  have hround := abs_rounded_sub_self_le_add y
  rw [abs_of_nonneg hy] at hround
  have hu := unitRoundoff_pos
  have hsmall := mul_unitRoundoff_le hn
  have hleast := two_zpow_pos (-1075)
  have hy_le : y ≤ x + (n * unitRoundoff * x + k * 2 ^ (-1075 : ℤ)) := by
    have hmoved := (le_abs_self (y - x)).trans (iff_le.mp h)
    linarith
  have hone : unitRoundoff ≤ 1 := by norm_num [unitRoundoff]
  -- The rounding is relative to `y`, the budget to `x`: between the two lies a product of errors.
  have hsecond : unitRoundoff * y ≤ 2 * unitRoundoff * x + k * 2 ^ (-1075 : ℤ) := by
    calc unitRoundoff * y
        ≤ unitRoundoff * (x + (n * unitRoundoff * x + k * 2 ^ (-1075 : ℤ))) := by gcongr
      _ = unitRoundoff * x + n * unitRoundoff * (unitRoundoff * x) +
            unitRoundoff * (k * 2 ^ (-1075 : ℤ)) := by ring
      _ ≤ unitRoundoff * x + 1 * (unitRoundoff * x) + 1 * (k * 2 ^ (-1075 : ℤ)) := by
          gcongr
          linarith
      _ = _ := by ring
  calc |Binary64.rounded y - x| ≤ |Binary64.rounded y - y| + |y - x| := abs_sub_le _ _ _
    _ ≤ (unitRoundoff * y + 2 ^ (-1075 : ℤ)) +
          (n * unitRoundoff * x + k * 2 ^ (-1075 : ℤ)) := add_le_add hround h
    _ ≤ _ := by
        push_cast
        linarith

/-- Multiplying by a rounded number. -/
theorem mul (h : Near n 0 x y) (hp : Near 1 0 p q) (hx : 0 ≤ x) (hp0 : 0 ≤ p) (hn : n ≤ 1000) :
    Near (n + 2) 0 (x * p) (y * q) := by
  have hu := unitRoundoff_pos
  have hsmall := mul_unitRoundoff_le hn
  simp only [iff_le, Nat.cast_zero, zero_mul, add_zero, Nat.cast_one, one_mul] at h hp ⊢
  have hxp : 0 ≤ x * p := mul_nonneg hx hp0
  have hq : |q| ≤ p + unitRoundoff * p := by
    calc |q| = |p + (q - p)| := by ring_nf
      _ ≤ |p| + |q - p| := abs_add_le _ _
      _ ≤ p + unitRoundoff * p := by rw [abs_of_nonneg hp0]; gcongr
  -- One factor is exchanged after the other, so that each error meets one exact factor.
  have hsplit : y * q - x * p = (y - x) * q + x * (q - p) := by ring
  calc |y * q - x * p| ≤ |(y - x) * q| + |x * (q - p)| := by rw [hsplit]; exact abs_add_le _ _
    _ = |y - x| * |q| + x * |q - p| := by rw [abs_mul, abs_mul, abs_of_nonneg hx]
    _ ≤ n * unitRoundoff * x * (p + unitRoundoff * p) + x * (unitRoundoff * p) := by gcongr
    _ = (n + 1) * unitRoundoff * (x * p) + n * unitRoundoff * (unitRoundoff * (x * p)) := by ring
    _ ≤ (n + 1) * unitRoundoff * (x * p) + 1 * (unitRoundoff * (x * p)) := by
        gcongr
        linarith
    _ = _ := by push_cast; ring

/-- Dividing by a rounded number. -/
theorem div (h : Near n k x y) (hp : Near 1 0 p q) (hx : 0 ≤ x) (hp1 : 1 ≤ p) (hn : n ≤ 1000) :
    Near (n + 3) (2 * k) (x / p) (y / q) := by
  have hu := unitRoundoff_pos
  have hsmall := mul_unitRoundoff_le hn
  have hleast := two_zpow_pos (-1075)
  simp only [iff_le, Nat.cast_zero, zero_mul, add_zero, Nat.cast_one, one_mul] at hp
  have hp0 : 0 < p := by linarith
  have hquarter : unitRoundoff ≤ 1 / 4 := by norm_num [unitRoundoff]
  have hq : p * (1 - unitRoundoff) ≤ q := by linarith [(abs_le.mp hp).1]
  have hq0 : 0 < q := (mul_pos hp0 (by linarith)).trans_le hq
  -- An inverse can double the error, so a quotient is given one rounding more than a product.
  have hinverse : q⁻¹ ≤ (1 + 2 * unitRoundoff) * p⁻¹ := by
    rw [inv_eq_one_div, div_le_iff₀ hq0]
    calc (1 : ℝ) ≤ (1 + 2 * unitRoundoff) * (1 - unitRoundoff) := by nlinarith
      _ = (1 + 2 * unitRoundoff) * p⁻¹ * (p * (1 - unitRoundoff)) := by field_simp
      _ ≤ (1 + 2 * unitRoundoff) * p⁻¹ * q := by gcongr
  have hp_inverse : p⁻¹ ≤ 1 := inv_le_one_of_one_le₀ hp1
  have hX : 0 ≤ x * p⁻¹ := by positivity
  have hsplit : y / q - x / p = (y - x) * q⁻¹ + x * p⁻¹ * (p - q) * q⁻¹ := by
    field_simp
    ring
  have hfirst : |(y - x) * q⁻¹| ≤
      (n + 1) * unitRoundoff * (x * p⁻¹) + 2 * (k * 2 ^ (-1075 : ℤ)) := by
    rw [abs_mul, abs_of_pos (inv_pos.mpr hq0)]
    calc |y - x| * q⁻¹
        ≤ (n * unitRoundoff * x + k * 2 ^ (-1075 : ℤ)) * ((1 + 2 * unitRoundoff) * p⁻¹) :=
          mul_le_mul h hinverse (inv_pos.mpr hq0).le (by positivity)
      _ = n * unitRoundoff * (x * p⁻¹) + 2 * (n * unitRoundoff) * (unitRoundoff * (x * p⁻¹)) +
            (1 + 2 * unitRoundoff) * p⁻¹ * (k * 2 ^ (-1075 : ℤ)) := by ring
      _ ≤ n * unitRoundoff * (x * p⁻¹) + 1 * (unitRoundoff * (x * p⁻¹)) +
            2 * 1 * (k * 2 ^ (-1075 : ℤ)) := by
          gcongr <;> linarith
      _ = _ := by ring
  have hsecond : |x * p⁻¹ * (p - q) * q⁻¹| ≤ 2 * unitRoundoff * (x * p⁻¹) := by
    rw [abs_mul, abs_mul, abs_of_pos (inv_pos.mpr hq0), abs_of_nonneg hX, abs_sub_comm]
    calc x * p⁻¹ * |q - p| * q⁻¹
        ≤ x * p⁻¹ * (unitRoundoff * p) * ((1 + 2 * unitRoundoff) * p⁻¹) := by gcongr
      _ = (1 + 2 * unitRoundoff) * (unitRoundoff * (x * p⁻¹)) := by field_simp
      _ ≤ 2 * (unitRoundoff * (x * p⁻¹)) := by gcongr; linarith
      _ = _ := by ring
  calc |y / q - x / p|
      ≤ |(y - x) * q⁻¹| + |x * p⁻¹ * (p - q) * q⁻¹| := by rw [hsplit]; exact abs_add_le _ _
    _ ≤ _ := add_le_add hfirst hsecond
    _ = ((n + 3 : ℕ) : ℝ) * unitRoundoff * (x / p) + ((2 * k : ℕ) : ℝ) * 2 ^ (-1075 : ℤ) := by
        push_cast
        rw [div_eq_mul_inv]
        ring

/-- Errors add up: from the number to the decimal, and from the decimal to what is read. -/
theorem trans {z : ℝ} (h : Near 1 k x y) (h' : Near n m y z) (hx : 0 ≤ x) (hn : n ≤ 1000) :
    Near (n + 2) (2 * k + m) x z := by
  have hu := unitRoundoff_pos
  have hsmall := mul_unitRoundoff_le hn
  have hleast := two_zpow_pos (-1075)
  simp only [iff_le, Nat.cast_one, one_mul] at h
  have hy : y ≤ x + (unitRoundoff * x + k * 2 ^ (-1075 : ℤ)) := by
    have hmoved := (le_abs_self (y - x)).trans h
    linarith
  -- The second error is relative to the decimal, and the decimal is not far above the number.
  have hsecond : n * unitRoundoff * y ≤
      (n + 1) * unitRoundoff * x + k * 2 ^ (-1075 : ℤ) := by
    calc n * unitRoundoff * y
        ≤ n * unitRoundoff * (x + (unitRoundoff * x + k * 2 ^ (-1075 : ℤ))) := by gcongr
      _ = n * unitRoundoff * x + n * unitRoundoff * (unitRoundoff * x) +
            n * unitRoundoff * (k * 2 ^ (-1075 : ℤ)) := by ring
      _ ≤ n * unitRoundoff * x + 1 * (unitRoundoff * x) + 1 * (k * 2 ^ (-1075 : ℤ)) := by
          gcongr <;> linarith
      _ = _ := by ring
  calc |z - x| ≤ |z - y| + |y - x| := abs_sub_le _ _ _
    _ ≤ (n * unitRoundoff * y + m * 2 ^ (-1075 : ℤ)) +
          (unitRoundoff * x + k * 2 ^ (-1075 : ℤ)) := add_le_add h' h
    _ ≤ _ := by
        push_cast
        linarith

end Near

/-! ## §2 Decimals as they are read -/

section Reading

variable {c k n m : ℕ} {f y : Float} {x r : ℝ}

/-- A whole number of the machine has one rounding. -/
theorem near_natCast (c : ℕ) : Near 1 0 (c : ℝ) (rounded c) := by
  rcases Nat.eq_zero_or_pos c with rfl | hc
  · simp [Near.iff_le]
  have hone : (1 : ℝ) ≤ c := by exact_mod_cast hc
  obtain ⟨hlow, hhigh⟩ :=
    rounded_mem ((zpow_le_one_of_nonpos₀ one_le_two (by norm_num)).trans hone)
  rw [Near.iff_le, abs_le]
  constructor <;> push_cast <;> linarith

/-- A power of ten as the reader has it. -/
noncomputable def tenPower (k : ℕ) : ℝ :=
  rounded (10 ^ k : ℕ)

private theorem one_le_tenPower (k : ℕ) : 1 ≤ tenPower k := by
  have hone : Representable (1 : ℝ) := by simpa using representable_natCast (k := 1) (by norm_num)
  exact le_rounded hone (by exact_mod_cast Nat.one_le_pow k 10 (by norm_num))

/-- A quotient by a power of ten stays small. -/
private theorem rounded_div_mem (hr : 0 ≤ r) (hr' : r ≤ 2 ^ (63 : ℤ)) :
    0 ≤ rounded (r / tenPower k) ∧ rounded (r / tenPower k) ≤ 2 ^ (63 : ℤ) := by
  have hpower := one_le_tenPower k
  exact ⟨rounded_nonneg (by positivity),
    rounded_le (Representable.two_zpow (by norm_num)) ((div_le_self hr hpower).trans hr')⟩

private theorem reads_div (hf : Reads f r) (hr : 0 ≤ r) (hr' : r ≤ 2 ^ (63 : ℤ)) (hk : k ≤ 308) :
    Reads (f / powerOfTen k) (rounded (r / tenPower k) : ℝ) := by
  have hpower := one_le_tenPower k
  obtain ⟨hnonneg, hle⟩ := @rounded_div_mem k r hr hr'
  have hten : Reads (powerOfTen k) (tenPower k : ℝ) := reads_powerOfTen hk
  refine (hf.div hten (by linarith)).of_nearest ?_
  rw [abs_of_nonneg hnonneg]
  exact hle.trans_lt (two_zpow_lt_overflow (by norm_num))

/-- Dividing by a power of ten costs five roundings at most. -/
private theorem near_div_power (h : Near n m x r) (hr : 0 ≤ r) (hx : 0 ≤ x) (hn : n ≤ 900) (k : ℕ) :
    Near (n + 5) (4 * m + 1) (x / 10 ^ k) (rounded (r / tenPower k)) := by
  have hpower : (1 : ℝ) ≤ (10 ^ k : ℕ) := by exact_mod_cast Nat.one_le_pow k 10 (by norm_num)
  have hpower' := one_le_tenPower k
  have hdivided := h.div (near_natCast (10 ^ k)) hx hpower (by omega)
  have hrounded := hdivided.rounded (by positivity) (by positivity) (by omega)
  rw [Nat.cast_pow, Nat.cast_ofNat] at hrounded
  rw [show n + 5 = n + 3 + 2 by ring, show 4 * m + 1 = 2 * (2 * m) + 1 by ring]
  exact_mod_cast hrounded

private theorem reads_mul (hc : c ≤ 2 ^ 63) (hk : k ≤ 308)
    (hinf : (Float.ofNat c * powerOfTen k).isInf = false) :
    Reads (Float.ofNat c * powerOfTen k) (rounded (rounded c * tenPower k) : ℝ) := by
  have hreads := (reads_coefficient hc).1.mul (reads_powerOfTen hk)
  have hfinite : (Float.ofNat c * powerOfTen k).isFinite = true := by
    by_contra hnot
    rcases isFinite_eq_false_iff.mp (Bool.not_eq_true _ ▸ hnot) with hnan | hinf'
    · rw [hreads.1] at hnan
      cases hnan
    · rw [hinf] at hinf'
      cases hinf'
  exact hreads.of_nearest (hreads.abs_lt_of_isFinite hfinite)

/-- Multiplying by a power of ten costs four roundings. -/
private theorem near_mul_power (c k : ℕ) :
    Near 5 1 (c * 10 ^ k) (rounded (rounded c * tenPower k)) := by
  have hpower := one_le_tenPower k
  have hc0 : 0 ≤ rounded c := rounded_nonneg (Nat.cast_nonneg c)
  have hmul := (near_natCast c).mul (near_natCast (10 ^ k)) (Nat.cast_nonneg c)
    (Nat.cast_nonneg _) (by norm_num)
  have hrounded := hmul.rounded (by positivity) (by positivity) (by norm_num)
  rw [Nat.cast_pow, Nat.cast_ofNat] at hrounded
  exact_mod_cast hrounded

/-- What the steps of the reader come to, each of them rounded: one product, one quotient, or two
quotients where the power of ten is too large for one. -/
noncomputable def scaledValue (c : ℕ) (e : ℤ) : ℝ :=
  if 0 ≤ e then rounded (rounded c * tenPower e.natAbs)
  else if e.natAbs ≤ 308 then rounded (rounded c / tenPower e.natAbs)
  else rounded (rounded (rounded c / tenPower 308) / tenPower (e + 308).natAbs)

@[simp] theorem scaledValue_zero (e : ℤ) : scaledValue 0 e = 0 := by
  simp [scaledValue]

theorem scaledValue_nonneg (c : ℕ) (e : ℤ) : 0 ≤ scaledValue c e := by
  have hc0 : 0 ≤ rounded c := rounded_nonneg (Nat.cast_nonneg c)
  have hpower : ∀ k : ℕ, 0 ≤ tenPower k := fun k => zero_le_one.trans (one_le_tenPower k)
  unfold scaledValue
  split_ifs
  · exact rounded_nonneg (mul_nonneg hc0 (hpower _))
  · exact rounded_nonneg (div_nonneg hc0 (hpower _))
  · exact rounded_nonneg (div_nonneg (rounded_nonneg (div_nonneg hc0 (hpower _))) (hpower _))

/-- What the reader makes of a decimal, when it makes something of it. -/
theorem reads_scaleBy {e : ℤ} (hc : c ≤ 2 ^ 63) (he : -616 ≤ e)
    (h : scaleBy e.natAbs (Float.ofNat c) e = .ok y) : Reads y (scaledValue c e : ℝ) := by
  obtain ⟨hreads, hword⟩ := reads_coefficient hc
  have hc0 : 0 ≤ rounded c := rounded_nonneg (Nat.cast_nonneg c)
  unfold scaleBy at h
  split_ifs at h with hsmall hsign hzero hlarge
  · -- One multiplication.
    have hinf : (Float.ofNat c * powerOfTen e.natAbs).isInf = false := by
      by_contra hinf
      rw [Bool.not_eq_false] at hinf
      dsimp only at h
      rw [hinf] at h
      cases h
    dsimp only at h
    rw [hinf] at h
    cases h
    rw [scaledValue, if_pos hsign]
    exact reads_mul hc hsmall hinf
  · -- One division.
    cases h
    rw [scaledValue, if_neg hsign, if_pos hsmall]
    exact reads_div hreads hc0 hword hsmall
  · -- Nothing to scale.
    cases h
    have hrounded : rounded c = 0 := by
      exact_mod_cast (hreads.beq_iff reads_zero).mp hzero
    have hc_zero : c = 0 := by
      by_contra hne
      have hone : (1 : ℝ) ≤ c := by exact_mod_cast Nat.one_le_iff_ne_zero.mpr hne
      have hle := le_rounded (by simpa using representable_natCast (k := 1) (by norm_num)) hone
      linarith
    subst hc_zero
    rw [scaledValue_zero, ← hrounded]
    exact hreads
  · -- Too large.
    cases h
  · -- Two divisions, the first by the last power there is.
    obtain ⟨fuel, hfuel⟩ := Nat.exists_eq_succ_of_ne_zero (show e.natAbs ≠ 0 by omega)
    rw [hfuel] at h
    dsimp only at h
    unfold scaleBy at h
    rw [if_pos (by omega), if_neg (by omega)] at h
    cases h
    obtain ⟨hnonneg, hle⟩ := @rounded_div_mem 308 _ hc0 hword
    rw [scaledValue, if_neg hlarge, if_neg hsmall]
    exact reads_div (reads_div hreads hc0 hword le_rfl) hnonneg hle (by omega)

/-- The steps come near the decimal. -/
theorem near_scaledValue (c : ℕ) {e : ℤ} : Near 11 5 (c * 10 ^ e) (scaledValue c e) := by
  have hc0 : 0 ≤ rounded c := rounded_nonneg (Nat.cast_nonneg c)
  have hpos : (0 : ℝ) ≤ c * 10 ^ e := by positivity
  unfold scaledValue
  split_ifs with hsign hsmall
  · -- One product.
    obtain ⟨k, rfl⟩ := Int.eq_ofNat_of_zero_le hsign
    rw [zpow_natCast]
    exact (near_mul_power c k).mono (by positivity) (by norm_num) (by norm_num)
  · -- One division.
    have hpower : (c : ℝ) / 10 ^ e.natAbs = c * 10 ^ e := by
      rw [show e = -(e.natAbs : ℤ) by omega, zpow_neg, zpow_natCast, Int.natAbs_neg,
        Int.natAbs_natCast, div_eq_mul_inv]
    have hnear := near_div_power (near_natCast c) hc0 (Nat.cast_nonneg c) (by norm_num) e.natAbs
    rw [hpower] at hnear
    exact hnear.mono hpos (by norm_num) (by norm_num)
  · -- Two divisions, and the error of the first one goes into the second.
    have hpower : (c : ℝ) / 10 ^ 308 / 10 ^ (e + 308).natAbs = c * 10 ^ e := by
      rw [show e = -((308 + (e + 308).natAbs : ℕ) : ℤ) by omega, zpow_neg, zpow_natCast, pow_add,
        mul_inv, div_eq_mul_inv, div_eq_mul_inv, mul_assoc]
      congr 4
      omega
    have hnear := near_div_power (near_natCast c) hc0 (Nat.cast_nonneg c) (by norm_num) 308
    have hfirst : 0 ≤ rounded (rounded c / tenPower 308) :=
      rounded_nonneg (div_nonneg hc0 (zero_le_one.trans (one_le_tenPower _)))
    have hnear' := near_div_power hnear hfirst (by positivity) (by norm_num) (e + 308).natAbs
    rw [hpower] at hnear'
    exact hnear'.mono hpos (by norm_num) (by norm_num)

end Reading

/-! ## §3 Numbers as they are read back -/

section Reread

variable {negative : Bool} {v : Magnitude} {x y : Float} {r t : ℝ}

/-- What is read from the digits of a magnitude. -/
def rereadSize (v : Magnitude) : Except Fault Float :=
  let s := asRead (shortest v .toEven)
  scaleBy s.exponent.natAbs (Float.ofNat s.coefficient) s.exponent

theorem decimalValue_eq (negative : Bool) (c : ℕ) (e : ℤ) :
    decimalValue negative c e =
      (scaleBy e.natAbs (Float.ofNat c) e).map fun f => if negative then -f else f := by
  rw [decimalValue]
  cases scaleBy e.natAbs (Float.ofNat c) e <;> rfl

/-- The sign is put before what is read. -/
theorem reread_of_finite (hx : Binary.ofFloat x = .finite negative v) (hy : rereadSize v = .ok y) :
    reread x = if negative then -y else y := by
  rw [reread, hx]
  dsimp only
  rw [decimalValue_eq, show scaleBy _ _ _ = .ok y from hy]
  rfl

/-- Half of the last bit is one rounding of a number with its leading bit, else the least half. -/
private theorem near_shortest (hv : v.IsCanonical) :
    Near 1 1 v.value
      ((shortest v .toEven).coefficient * 10 ^ (shortest v .toEven).exponent) := by
  have hnear := abs_shortest_sub_le hv.mantissa_lt hv.least_le hv.le_greatest .toEven
  have hleast := two_zpow_pos (-1075)
  have hpow := two_zpow_pos v.exponent
  have hvalue := v.value_nonneg
  have hrelative : 0 ≤ unitRoundoff * v.value := mul_nonneg (two_zpow_pos _).le hvalue
  refine Near.iff_le.mpr (hnear.trans ?_)
  rw [Nat.cast_one, one_mul, one_mul]
  rcases hv.lead with hlead | hlast
  · have hlead' : (2 : ℝ) ^ (52 : ℤ) ≤ v.mantissa := by exact_mod_cast hlead
    calc (2 : ℝ) ^ (v.exponent - 1) = unitRoundoff * (2 ^ (52 : ℤ) * 2 ^ v.exponent) := by
          rw [unitRoundoff, ← zpow_add₀ two_ne_zero, ← zpow_add₀ two_ne_zero]
          congr 1
          ring
      _ ≤ unitRoundoff * v.value := by
          rw [Magnitude.value_eq]
          gcongr
          exact (two_zpow_pos _).le
      _ ≤ _ := by linarith
  · rw [hlast, show (-1074 : ℤ) - 1 = -1075 by norm_num]
    linarith

theorem exists_rereadSize (hv : v.IsCanonical) : ∃ y, rereadSize v = .ok y := by
  obtain ⟨y, hy⟩ := @exists_decimalValue false v hv.mantissa_lt hv.least_le hv.le_greatest
  refine ⟨y, ?_⟩
  rw [← hy, decimalValue_eq]
  cases hsize : rereadSize v with
  | error fault => rw [show scaleBy _ _ _ = _ from hsize]; rfl
  | ok y => rw [show scaleBy _ _ _ = _ from hsize]; rfl

/-- What the steps of the reader make of the digits of a magnitude. -/
noncomputable def rereadValue (v : Magnitude) : ℝ :=
  scaledValue (asRead (shortest v .toEven)).coefficient (asRead (shortest v .toEven)).exponent

theorem rereadValue_nonneg (v : Magnitude) : 0 ≤ rereadValue v :=
  scaledValue_nonneg _ _

theorem reads_rereadSize (hv : v.IsCanonical) (hy : rereadSize v = .ok y) :
    Reads y (rereadValue v : ℝ) := by
  have hfits := shortest_fits hv.mantissa_lt hv.least_le hv.le_greatest .toEven
  exact reads_scaleBy (coefficient_asRead_lt hfits).le
    ((show (-616 : ℤ) ≤ -342 by norm_num).trans (least_le_asRead hfits)) hy

/-- The digits of a magnitude are read as a number near it. -/
theorem near_rereadValue (hv : v.IsCanonical) : Near 13 7 v.value (rereadValue v) := by
  have hnear := @near_scaledValue (asRead (shortest v .toEven)).coefficient
    (asRead (shortest v .toEven)).exponent
  rw [value_asRead] at hnear
  exact (near_shortest hv).trans hnear v.value_nonneg (by norm_num)

/-- The budget as two bounds on what is read. -/
private theorem Near.mem {x t : ℝ} (h : Near 13 7 x t) (hx : 0 ≤ x) :
    x - 2 ^ (-49 : ℤ) * x - 2 ^ (-1072 : ℤ) ≤ t ∧ t ≤ x + 2 ^ (-49 : ℤ) * x + 2 ^ (-1072 : ℤ) := by
  have hrelative : 13 * unitRoundoff * x ≤ 2 ^ (-49 : ℤ) * x :=
    mul_le_mul_of_nonneg_right (by norm_num [unitRoundoff]) hx
  have habsolute : (7 : ℝ) * 2 ^ (-1075 : ℤ) ≤ 2 ^ (-1072 : ℤ) := by
    rw [show (-1072 : ℤ) = 3 + -1075 by norm_num, zpow_add₀ two_ne_zero]
    exact mul_le_mul_of_nonneg_right (by norm_num) (two_zpow_pos _).le
  obtain ⟨hlow, hhigh⟩ := abs_le.mp h
  norm_num only [Nat.cast_ofNat] at hlow hhigh
  constructor <;> linarith

-- The errors are larger than the least magnitudes, so these are read one by one.
private theorem pos_of_least : ∀ i : Fin 5,
    0.0 < (rereadSize ⟨i, -1074⟩).toOption.getD 0.0 ↔ i ≠ 0 := by
  decide +kernel

/-- Only zero is read as zero. -/
theorem rereadValue_pos_iff (hv : v.IsCanonical) : 0 < rereadValue v ↔ 0 < v.mantissa := by
  by_cases hsmall : v.exponent = -1074 ∧ v.mantissa < 5
  · -- Below five the error is as large as the number, and the table decides.
    obtain ⟨y, hy⟩ := exists_rereadSize hv
    have hleast := pos_of_least ⟨v.mantissa, hsmall.2⟩
    have hv' : (⟨v.mantissa, -1074⟩ : Magnitude) = v := by rw [← hsmall.1]
    rw [show rereadSize ⟨v.mantissa, -1074⟩ = .ok y by rw [hv', hy]] at hleast
    rw [Nat.pos_iff_ne_zero, ← EReal.coe_pos, ← reads_zero.lt_iff (reads_rereadSize hv hy)]
    exact hleast.trans (not_congr Fin.mk_eq_zero)
  · have hnear := near_rereadValue hv
    have hlarge : 5 ≤ v.mantissa := by
      have hlead := hv.lead
      omega
    have hvalue : 5 * (2 : ℝ) ^ (-1074 : ℤ) ≤ v.value := by
      rw [Magnitude.value_eq]
      gcongr
      · exact_mod_cast hlarge
      · norm_num
      · exact hv.least_le
    have hscale : (2 : ℝ) ^ (-1072 : ℤ) = 4 * 2 ^ (-1074 : ℤ) := by
      rw [show (-1072 : ℤ) = 2 + -1074 by norm_num, zpow_add₀ two_ne_zero]
      norm_num
    have hleast := two_zpow_pos (-1074)
    have hpos : 0 ≤ v.value := by linarith
    have hmem := (hnear.mem hpos).1
    have hrelative : (2 : ℝ) ^ (-49 : ℤ) * v.value ≤ 1 / 10 * v.value :=
      mul_le_mul_of_nonneg_right (by norm_num) hpos
    refine iff_of_true ?_ (by omega)
    rw [hscale] at hmem
    -- As variables, for powers of this size are slow to compute with.
    generalize (2 : ℝ) ^ (-1074 : ℤ) = least at hmem hvalue hleast
    generalize (2 : ℝ) ^ (-49 : ℤ) * v.value = moved at hmem hrelative
    linarith

-- The magnitudes on either side of one within the error.
private theorem lt_one_of_below : ∀ i : Fin 16,
    (rereadSize ⟨2 ^ 53 - 1 - i, -53⟩).toOption.getD 0.0 < 1.0 ↔ i ≠ 0 := by
  decide

private theorem not_lt_one_of_above : ∀ i : Fin 8,
    ¬ (rereadSize ⟨2 ^ 52 + i, -52⟩).toOption.getD 0.0 < 1.0 := by
  decide

/-- Just below one and from one on the last bits are these. -/
private theorem near_one_cases (hv : v.IsCanonical) (hlow : 1 - 2 ^ (-49 : ℤ) < v.value)
    (hhigh : v.value < 1 + 2 ^ (-49 : ℤ)) :
    (∃ i : Fin 16, v = ⟨2 ^ 53 - 1 - i, -53⟩) ∨ ∃ i : Fin 8, v = ⟨2 ^ 52 + i, -52⟩ := by
  obtain ⟨m, e⟩ := v
  obtain ⟨hmantissa, hleast, -, hlead⟩ := hv
  dsimp only [Magnitude.value_eq] at *
  -- Without a leading bit the number is far below one.
  have hlead' : 2 ^ 52 ≤ m := by
    refine hlead.resolve_right ?_
    rintro rfl
    have htiny : (m : ℝ) * 2 ^ (-1074 : ℤ) < 2 ^ (-1 : ℤ) :=
      (magnitude_lt_two_zpow hmantissa (-1074)).trans_le
        (zpow_le_zpow_right₀ one_le_two (by norm_num))
    exact absurd (hlow.trans htiny) (not_lt.mpr (by norm_num))
  have hone := two_zpow_le_magnitude hlead' e
  have htwo := magnitude_lt_two_zpow hmantissa e
  -- With it the exponent follows from the size, up to the side of one on which the number lies.
  have hexponent : e = -53 ∨ e = -52 := by
    have hhalf : (2 : ℝ) ^ (-1 : ℤ) < 2 ^ (53 + e) := by
      refine lt_trans ?_ (hlow.trans htwo)
      norm_num
    have hless : (2 : ℝ) ^ (52 + e) < 2 ^ (1 : ℤ) := by
      refine (hone.trans_lt hhigh).trans ?_
      norm_num
    have hhalf' := (zpow_lt_zpow_iff_right₀ one_lt_two).mp hhalf
    have hless' := (zpow_lt_zpow_iff_right₀ one_lt_two).mp hless
    omega
  rcases hexponent with rfl | rfl
  · have hm : 2 ^ 53 - 16 < m := by
      have hscaled : ((2 : ℝ) ^ 53 - 16) * 2 ^ (-53 : ℤ) < m * 2 ^ (-53 : ℤ) :=
        lt_of_eq_of_lt (by norm_num) hlow
      have hreal := (mul_lt_mul_iff_left₀ (two_zpow_pos (-53))).mp hscaled
      rw [sub_lt_iff_lt_add] at hreal
      have hnat : 2 ^ 53 < m + 16 := by exact_mod_cast hreal
      omega
    exact Or.inl ⟨⟨2 ^ 53 - 1 - m, by omega⟩, by simp; omega⟩
  · have hm : m < 2 ^ 52 + 8 := by
      have hscaled : m * 2 ^ (-52 : ℤ) < ((2 : ℝ) ^ 52 + 8) * 2 ^ (-52 : ℤ) :=
        lt_of_lt_of_eq hhigh (by norm_num)
      have hreal := (mul_lt_mul_iff_left₀ (two_zpow_pos (-52))).mp hscaled
      exact_mod_cast hreal
    exact Or.inr ⟨⟨m - 2 ^ 52, by omega⟩, by simp; omega⟩

private theorem value_below (i : Fin 16) :
    (⟨2 ^ 53 - 1 - i, -53⟩ : Magnitude).value = 1 - 2 ^ (-53 : ℤ) - i * 2 ^ (-53 : ℤ) := by
  have hcast : ((2 ^ 53 - 1 - i.val : ℕ) : ℝ) = 2 ^ 53 - 1 - i.val := by
    rw [Nat.cast_sub (by omega), Nat.cast_sub (by norm_num)]
    norm_num
  rw [Magnitude.value_eq, hcast]
  ring

private theorem one_le_value_above (i : Fin 8) :
    1 ≤ (⟨2 ^ 52 + i, -52⟩ : Magnitude).value := by
  calc (1 : ℝ) = 2 ^ (52 : ℕ) * 2 ^ (-52 : ℤ) := by norm_num
    _ ≤ ((2 ^ 52 + i.val : ℕ) : ℝ) * 2 ^ (-52 : ℤ) := by
      gcongr
      exact_mod_cast Nat.le_add_right _ _

/-- The last number below one is read as one, and no other number changes sides. -/
theorem rereadValue_lt_one_iff (hv : v.IsCanonical) :
    rereadValue v < 1 ↔ v.value < 1 - 2 ^ (-53 : ℤ) := by
  have hnear := near_rereadValue hv
  have hpos : 0 ≤ v.value := v.value_nonneg
  obtain ⟨hlow, hhigh⟩ := abs_le.mp hnear
  have habsolute : (7 : ℕ) * (2 : ℝ) ^ (-1075 : ℤ) ≤ 2 ^ (-60 : ℤ) := by
    calc ((7 : ℕ) : ℝ) * 2 ^ (-1075 : ℤ) ≤ 2 ^ (3 : ℤ) * 2 ^ (-1075 : ℤ) :=
          mul_le_mul_of_nonneg_right (by norm_num) (two_zpow_pos _).le
      _ = 2 ^ (-1072 : ℤ) := by
          rw [← zpow_add₀ two_ne_zero]
          norm_num
      _ ≤ 2 ^ (-60 : ℤ) := zpow_le_zpow_right₀ one_le_two (by norm_num)
  generalize (7 : ℕ) * (2 : ℝ) ^ (-1075 : ℤ) = absolute at hlow hhigh habsolute
  rcases le_or_gt v.value (1 - 2 ^ (-49 : ℤ)) with hbelow | hbelow
  · -- Too far below one to reach it.
    norm_num [unitRoundoff] at *
    exact iff_of_true (by linarith) (by linarith)
  rcases le_or_gt (1 + 2 ^ (-49 : ℤ)) v.value with habove | habove
  · norm_num [unitRoundoff] at *
    exact iff_of_false (by linarith) (by linarith)
  · obtain ⟨y, hy⟩ := exists_rereadSize hv
    have hread : (rereadSize v).toOption.getD 0.0 = y := by rw [hy]; rfl
    have hone : y < 1.0 ↔ rereadValue v < 1 := by
      rw [(reads_rereadSize hv hy).lt_iff reads_literal_one]
      exact_mod_cast Iff.rfl
    rw [← hone]
    rcases near_one_cases hv hbelow habove with ⟨i, rfl⟩ | ⟨i, rfl⟩
    · rw [← hread, lt_one_of_below i, value_below, sub_lt_self_iff,
        mul_pos_iff_of_pos_right (two_zpow_pos _), Nat.cast_pos, Nat.pos_iff_ne_zero]
      exact not_congr Fin.val_eq_zero_iff.symm
    · have habove := one_le_value_above i
      refine iff_of_false (hread ▸ not_lt_one_of_above i) (not_lt.mpr ?_)
      exact le_trans (by norm_num) habove

end Reread

/-! ## §4 How far, and across what -/

section Moves

variable {x y : Float} {r s : ℝ}

/-- Reading back is reading the magnitude back and putting the sign before it. -/
theorem exists_signed (hx : Reads x r) :
    ∃ (negative : Bool) (v : Magnitude), Binary.ofFloat x = .finite negative v ∧ v.IsCanonical ∧
      r = (if negative then -v.value else v.value) ∧
      Reads (reread x) (if negative then -rereadValue v else rereadValue v : ℝ) := by
  obtain ⟨negative, v, hv, hcanonical, hr⟩ := Binary.ofFloat_of_reads hx
  obtain ⟨z, hz⟩ := exists_rereadSize hcanonical
  refine ⟨negative, v, hv, hcanonical, hr, ?_⟩
  rw [reread_of_finite hv hz]
  cases negative with
  | false => exact reads_rereadSize hcanonical hz
  | true => exact (reads_rereadSize hcanonical hz).neg

/-- **A number moves little** when it is written and read. -/
theorem exists_reads_reread (hx : Reads x r) :
    ∃ t : ℝ, Reads (reread x) t ∧ |t - r| ≤ 2 ^ (-49 : ℤ) * |r| + 2 ^ (-1072 : ℤ) := by
  obtain ⟨negative, v, -, hv, rfl, hread⟩ := exists_signed hx
  refine ⟨_, hread, ?_⟩
  have hvalue := v.value_nonneg
  have hmoved : |rereadValue v - v.value| ≤ 2 ^ (-49 : ℤ) * v.value + 2 ^ (-1072 : ℤ) := by
    obtain ⟨hlow, hhigh⟩ := (near_rereadValue hv).mem hvalue
    exact abs_le.mpr ⟨by linarith, by linarith⟩
  cases negative with
  | false => simpa [abs_of_nonneg hvalue] using hmoved
  | true =>
    have hflip : -rereadValue v - -v.value = -(rereadValue v - v.value) := by ring
    simp only [if_true, hflip, abs_neg, abs_of_nonneg hvalue]
    exact hmoved

theorem isFinite_reread (hx : x.isFinite = true) : (reread x).isFinite = true := by
  obtain ⟨r, hr⟩ := isFinite_iff_exists_reads.mp hx
  obtain ⟨t, ht, -⟩ := exists_reads_reread hr
  exact ht.isFinite

/-- No number moves to zero or across it. -/
theorem pos_reread_iff (hx : x.isFinite = true) : 0.0 < reread x ↔ 0.0 < x := by
  obtain ⟨r, hr⟩ := isFinite_iff_exists_reads.mp hx
  obtain ⟨negative, v, -, hv, rfl, hread⟩ := exists_signed hr
  rw [reads_zero.lt_iff hread, reads_zero.lt_iff hr, EReal.coe_pos, EReal.coe_pos]
  cases negative with
  | false =>
    rw [if_neg Bool.false_ne_true, if_neg Bool.false_ne_true, rereadValue_pos_iff hv,
      Magnitude.value_eq, mul_pos_iff_of_pos_right (two_zpow_pos _), Nat.cast_pos]
  | true =>
    refine iff_of_false ?_ (by simpa using v.value_nonneg)
    simpa using rereadValue_nonneg v

/-- The last number before one. -/
def belowOne : Float :=
  Float.ofBits 0x3FEFFFFFFFFFFFFF

theorem reads_belowOne : Reads belowOne ((1 - 2 ^ (-53 : ℤ) : ℝ) : EReal) := by
  refine ⟨rfl, ?_⟩
  change ((1 * (((2 ^ 53 - 1 : ℕ) : ℝ) * 2 ^ (-53 : ℤ)) : ℝ) : EReal) = _
  norm_num

/-- **One number moves to one**, the last before it, and no other moves to it or across it. -/
theorem reread_lt_one_iff (hx : x.isFinite = true) : reread x < 1.0 ↔ x < belowOne := by
  obtain ⟨r, hr⟩ := isFinite_iff_exists_reads.mp hx
  obtain ⟨negative, v, -, hv, rfl, hread⟩ := exists_signed hr
  rw [hread.lt_iff reads_literal_one, hr.lt_iff reads_belowOne, EReal.coe_lt_coe_iff,
    EReal.coe_lt_coe_iff]
  cases negative with
  | false =>
    rw [if_neg Bool.false_ne_true, if_neg Bool.false_ne_true]
    exact rereadValue_lt_one_iff hv
  | true =>
    have hbelow : (0 : ℝ) < 1 - 2 ^ (-53 : ℤ) := by norm_num
    refine iff_of_true ?_ (lt_of_le_of_lt (by simpa using v.value_nonneg) hbelow)
    exact lt_of_le_of_lt (by simpa using rereadValue_nonneg v) one_pos

/-- No number lies between the last before one and one. -/
theorem beq_belowOne_iff (hx : x.isFinite = true) :
    (x == belowOne) = true ↔ x < 1.0 ∧ ¬ x < belowOne := by
  obtain ⟨r, hr⟩ := isFinite_iff_exists_reads.mp hx
  rw [hr.beq_iff reads_belowOne, hr.lt_iff reads_literal_one, hr.lt_iff reads_belowOne, not_lt,
    EReal.coe_eq_coe_iff, EReal.coe_lt_coe_iff, EReal.coe_le_coe_iff]
  constructor
  · rintro rfl
    norm_num
  · rintro ⟨hone, hbelow⟩
    exact le_antisymm (hr.representable.le_of_lt_one hone) hbelow

/-- A zero is read as a zero. -/
theorem reads_reread_zero (hx : Reads x (0 : ℝ)) : Reads (reread x) (0 : ℝ) := by
  obtain ⟨negative, v, -, hv, hr, hread⟩ := exists_signed hx
  have hmantissa : v.mantissa = 0 := by
    rw [← v.value_eq_zero_iff]
    cases negative with
    | false => exact hr.symm
    | true => exact neg_eq_zero.mp hr.symm
  have hzero : rereadValue v = 0 := by
    refine le_antisymm ?_ (rereadValue_nonneg v)
    exact not_lt.mp ((rereadValue_pos_iff hv).not.mpr (by omega))
  simpa [hzero] using hread

/-- Equal numbers stay equal, be they zeros of different signs. -/
theorem exists_reads_of_equal (hx : Reads x r) (hy : Reads y r) :
    ∃ t : ℝ, Reads (reread x) t ∧ Reads (reread y) t := by
  by_cases hzero : r = 0
  · rw [hzero] at hx hy
    exact ⟨0, reads_reread_zero hx, reads_reread_zero hy⟩
  · -- Any other point is one number.
    obtain rfl : x = y := Binary.eq_of_reads hx hy (by exact_mod_cast hzero)
    obtain ⟨t, ht, -⟩ := exists_reads_reread hx
    exact ⟨t, ht, ht⟩

/-- Numbers that are far enough apart stay apart. -/
private theorem exists_reads_of_gap (hx : Reads x r) (hy : Reads y s)
    (hgap : r + (2 ^ (-48 : ℤ) * max |r| |s| + 2 ^ (-1071 : ℤ)) < s) :
    ∃ t t' : ℝ, Reads (reread x) t ∧ Reads (reread y) t' ∧ t < t' := by
  obtain ⟨t, ht, hmoved⟩ := exists_reads_reread hx
  obtain ⟨t', ht', hmoved'⟩ := exists_reads_reread hy
  have hsum : 2 ^ (-49 : ℤ) * |r| + 2 ^ (-49 : ℤ) * |s| ≤ 2 ^ (-48 : ℤ) * max |r| |s| := by
    have hr := le_max_left |r| |s|
    have hs := le_max_right |r| |s|
    norm_num
    linarith
  have hleast : (2 : ℝ) ^ (-1071 : ℤ) = 2 * 2 ^ (-1072 : ℤ) := by
    rw [show (-1071 : ℤ) = 1 + -1072 by norm_num, zpow_add₀ two_ne_zero, zpow_one]
  have hup := (abs_le.mp hmoved).2
  have hdown := (abs_le.mp hmoved').1
  rw [hleast] at hgap
  refine ⟨t, t', ht, ht', ?_⟩
  generalize (2 : ℝ) ^ (-1072 : ℤ) = least at *
  linarith

/-- **Numbers stay in order** if they are equal or far enough apart. -/
theorem reread_lt_iff (hx : Reads x r) (hy : Reads y s)
    (hapart : r = s ∨ 2 ^ (-48 : ℤ) * max |r| |s| + 2 ^ (-1071 : ℤ) < |r - s|) :
    reread x < reread y ↔ x < y := by
  rw [hx.lt_iff hy, EReal.coe_lt_coe_iff]
  rcases hapart with rfl | hapart
  · obtain ⟨t, ht, ht'⟩ := exists_reads_of_equal hx hy
    simp [ht.lt_iff ht']
  have hgap0 : 0 ≤ 2 ^ (-48 : ℤ) * max |r| |s| + 2 ^ (-1071 : ℤ) := by positivity
  rcases lt_abs.mp hapart with hgap | hgap
  · obtain ⟨t, t', ht, ht', hlt⟩ := exists_reads_of_gap hy hx (by rw [max_comm]; linarith)
    rw [ht'.lt_iff ht, EReal.coe_lt_coe_iff]
    exact iff_of_false hlt.not_gt (by linarith)
  · obtain ⟨t, t', ht, ht', hlt⟩ := exists_reads_of_gap hx hy (by linarith)
    rw [ht.lt_iff ht', EReal.coe_lt_coe_iff]
    exact iff_of_true hlt (by linarith)

end Moves

end OnlineAggregation.Json
