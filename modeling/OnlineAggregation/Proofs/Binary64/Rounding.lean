import Mathlib

/-!
# Rounding to binary64 on the real line

Rounding to the nearest number with 53 significant bits and no bit below `2 ^ -1074`, a tie going to
the even neighbour. Without an upper limit to the exponent this is a function from reals to reals;
the limit moves what is beyond it to the ends of the extended line. Main statements: the result is
representable, no representable number is nearer, and rounding is monotone.
-/

namespace OnlineAggregation.Binary64

/-! ## §1 The nearest integer -/

/-- The integer nearest to `x`; halfway between two, the even one. -/
noncomputable def nearestEven (x : ℝ) : ℤ :=
  if Int.fract x < 1 / 2 then ⌊x⌋
  else if 1 / 2 < Int.fract x then ⌊x⌋ + 1
  else ⌊x⌋ + ⌊x⌋ % 2

@[simp] theorem nearestEven_intCast (n : ℤ) : nearestEven n = n := by
  simp [nearestEven]

/-- The nearest integer is at most half a unit away. -/
theorem abs_nearestEven_sub_le (x : ℝ) : |(nearestEven x : ℝ) - x| ≤ 1 / 2 := by
  have hsplit := Int.floor_add_fract x
  have hlow := Int.fract_nonneg x
  have hhigh := Int.fract_lt_one x
  unfold nearestEven
  split_ifs with hbelow habove
  · rw [abs_le]
    constructor <;> linarith
  · push_cast
    rw [abs_le]
    constructor <;> linarith
  · -- Exactly half way, either neighbour will do, so the parity does not matter.
    have hhalf : Int.fract x = 1 / 2 := le_antisymm (not_lt.mp habove) (not_lt.mp hbelow)
    rcases Int.emod_two_eq_zero_or_one ⌊x⌋ with hpar | hpar <;>
    · rw [hpar, abs_le]
      push_cast
      constructor <;> linarith

/-- No integer is nearer than the nearest one. -/
theorem abs_nearestEven_sub_le_abs (x : ℝ) (k : ℤ) : |(nearestEven x : ℝ) - x| ≤ |(k : ℝ) - x| := by
  by_cases hk : nearestEven x = k
  · rw [hk]
  have hhalf := abs_nearestEven_sub_le x
  -- Two different integers are a whole unit apart, so `k` is at least half a unit away.
  have hunit : (1 : ℝ) ≤ |(nearestEven x : ℝ) - k| := by
    exact_mod_cast Int.one_le_abs (sub_ne_zero.mpr hk)
  have htriangle := abs_sub_le (nearestEven x : ℝ) x k
  rw [abs_sub_comm x] at htriangle
  linarith

/-- Within half a unit there is one integer only, or two of which one is even. -/
theorem nearestEven_eq {x : ℝ} {n : ℤ} (hx : |x - n| ≤ 1 / 2)
    (htie : ¬ Even n → |x - n| < 1 / 2) : nearestEven x = n := by
  rcases hx.lt_or_eq with hless | hhalf
  · have hnear := abs_nearestEven_sub_le x
    have htriangle := abs_sub_le (nearestEven x : ℝ) x n
    have hless : |(nearestEven x : ℝ) - n| < 1 := by linarith
    have hzero : |nearestEven x - n| < 1 := by exact_mod_cast hless
    exact sub_eq_zero.mp (Int.abs_lt_one_iff.mp hzero)
  · -- On a tie `n` is even, and `x` half a unit above it or below.
    have heven : n % 2 = 0 := by
      by_contra hodd
      exact absurd hhalf (htie (mt Int.even_iff.mp hodd)).ne
    rcases (abs_eq (by norm_num)).mp hhalf with habove | hbelow
    · have hfloor : ⌊x⌋ = n := Int.floor_eq_iff.mpr ⟨by linarith, by linarith⟩
      have hfract : Int.fract x = 1 / 2 := by rw [Int.fract, hfloor, habove]
      simp [nearestEven, hfract, hfloor, heven]
    · have hfloor : ⌊x⌋ = n - 1 := by
        rw [Int.floor_eq_iff]
        push_cast
        exact ⟨by linarith, by linarith⟩
      have hfract : Int.fract x = 1 / 2 := by
        rw [Int.fract, hfloor]
        push_cast
        linarith
      have hodd : (n - 1) % 2 = 1 := by omega
      simp [nearestEven, hfract, hfloor, hodd]

private theorem fract_neg_eq {x : ℝ} (hx : Int.fract x ≠ 0) : ⌊-x⌋ = -⌊x⌋ - 1 := by
  have hlow := lt_of_le_of_ne (Int.fract_nonneg x) (Ne.symm hx)
  have hhigh := Int.fract_lt_one x
  have hsplit := Int.floor_add_fract x
  rw [Int.floor_eq_iff]
  push_cast
  constructor <;> linarith

/-- Rounding to integers is symmetric about zero. -/
@[simp] theorem nearestEven_neg (x : ℝ) : nearestEven (-x) = -nearestEven x := by
  by_cases hx : Int.fract x = 0
  · have hint : x = (⌊x⌋ : ℝ) := by
      have hsplit := Int.floor_add_fract x
      linarith
    rw [hint, ← Int.cast_neg, nearestEven_intCast, nearestEven_intCast]
  · -- Below and above one half change places; on a tie the even neighbour stays even.
    have hfloor := fract_neg_eq hx
    have hfract := Int.fract_neg hx
    unfold nearestEven
    rw [hfloor, hfract]
    split_ifs <;> first | omega | linarith

/-! ## §2 The grid of representable numbers -/

theorem two_zpow_pos (e : ℤ) : (0 : ℝ) < 2 ^ e :=
  zpow_pos two_pos e

theorem two_zpow_le_mul {x y : ℝ} {i j k : ℤ} (hx : 2 ^ i ≤ x) (hy : 2 ^ j ≤ y)
    (hk : i + j = k := by norm_num) : 2 ^ k ≤ x * y := by
  rw [← hk, zpow_add₀ two_ne_zero]
  exact mul_le_mul hx hy (two_zpow_pos j).le ((two_zpow_pos i).le.trans hx)

theorem mul_le_two_zpow {x y : ℝ} {i j k : ℤ} (hx : x ≤ 2 ^ i) (hy : 0 ≤ y) (hy' : y ≤ 2 ^ j)
    (hk : i + j = k := by norm_num) : x * y ≤ 2 ^ k := by
  rw [← hk, zpow_add₀ two_ne_zero]
  exact mul_le_mul hx hy' hy (two_zpow_pos i).le

theorem two_zpow_le_div {x y : ℝ} {i j k : ℤ} (hx : 2 ^ i ≤ x) (hy : 0 < y) (hy' : y ≤ 2 ^ j)
    (hk : k + j = i := by norm_num) : 2 ^ k ≤ x / y := by
  rw [le_div_iff₀ hy]
  exact (mul_le_two_zpow le_rfl hy.le hy' hk).trans hx

theorem div_le_two_zpow {x y : ℝ} {i j k : ℤ} (hx : x ≤ 2 ^ i) (hy : 2 ^ j ≤ y)
    (hk : k + j = i := by norm_num) : x / y ≤ 2 ^ k := by
  rw [div_le_iff₀ ((two_zpow_pos j).trans_le hy)]
  exact hx.trans (two_zpow_le_mul le_rfl hy hk)

/-- The exponent of the last place that a number of the size of `x` has. -/
noncomputable def lastPlace (x : ℝ) : ℤ :=
  max (Int.log 2 |x| - 52) (-1074)

/-- The number nearest to `x` with at most 53 significant bits, down to the place `2 ^ -1074`. -/
noncomputable def rounded (x : ℝ) : ℝ :=
  nearestEven (x / 2 ^ lastPlace x) * 2 ^ lastPlace x

/-- A number with at most 53 significant bits and none below the place `2 ^ -1074`. -/
def Representable (x : ℝ) : Prop :=
  ∃ n e : ℤ, |n| < 2 ^ 53 ∧ -1074 ≤ e ∧ x = n * 2 ^ e

namespace Representable

theorem zero : Representable 0 :=
  ⟨0, 0, by norm_num, by norm_num, by simp⟩

theorem neg {x : ℝ} (hx : Representable x) : Representable (-x) := by
  obtain ⟨n, e, hn, he, rfl⟩ := hx
  exact ⟨-n, e, by rwa [abs_neg], he, by push_cast; ring⟩

/-- A mantissa may also reach `2 ^ 53`, where it is a power of two. -/
theorem of_le {n e : ℤ} (hn : |n| ≤ 2 ^ 53) (he : -1074 ≤ e) :
    Representable ((n : ℝ) * 2 ^ e) := by
  rcases lt_or_eq_of_le hn with hlt | heq
  · exact ⟨n, e, hlt, he, rfl⟩
  · -- The power of two is written with half the mantissa and the next exponent.
    have hshift : (2 : ℝ) ^ (e + 1) = 2 ^ e * 2 := zpow_add_one₀ two_ne_zero e
    rcases eq_or_eq_neg_of_abs_eq heq with rfl | rfl
    · refine ⟨2 ^ 52, e + 1, by norm_num, by omega, ?_⟩
      rw [hshift]
      push_cast
      ring
    · refine ⟨-2 ^ 52, e + 1, by norm_num, by omega, ?_⟩
      rw [hshift]
      push_cast
      ring

theorem two_zpow {k : ℤ} (hk : -1074 ≤ k) : Representable (2 ^ k) := by
  simpa using of_le (n := 1) (by norm_num) hk

/-- Representable numbers are whole multiples of the least of them. -/
theorem exists_multiple {x : ℝ} (hx : Representable x) : ∃ k : ℤ, x = k * 2 ^ (-1074 : ℤ) := by
  obtain ⟨n, e, -, he, rfl⟩ := hx
  obtain ⟨d, hd⟩ := Int.eq_ofNat_of_zero_le (show 0 ≤ e + 1074 by omega)
  refine ⟨n * 2 ^ d, ?_⟩
  have hexp : e = (d : ℤ) + (-1074) := by omega
  rw [hexp, zpow_add₀ two_ne_zero, zpow_natCast]
  push_cast
  ring

/-- Two numbers of the format are at least the least of them apart. -/
theorem two_zpow_le_sub {x y : ℝ} (hx : Representable x) (hy : Representable y) (hyx : y < x) :
    (2 : ℝ) ^ (-1074 : ℤ) ≤ x - y := by
  obtain ⟨k, rfl⟩ := hx.exists_multiple
  obtain ⟨j, rfl⟩ := hy.exists_multiple
  have hplace : (0 : ℝ) < 2 ^ (-1074 : ℤ) := two_zpow_pos _
  rw [mul_lt_mul_iff_left₀ hplace, Int.cast_lt] at hyx
  have hstep : (1 : ℝ) ≤ k - j := by
    exact_mod_cast Int.le_sub_left_of_add_le (Int.add_one_le_of_lt hyx)
  calc (2 : ℝ) ^ (-1074 : ℤ) = 1 * 2 ^ (-1074 : ℤ) := (one_mul _).symm
    _ ≤ (k - j) * 2 ^ (-1074 : ℤ) := mul_le_mul_of_nonneg_right hstep hplace.le
    _ = k * 2 ^ (-1074 : ℤ) - j * 2 ^ (-1074 : ℤ) := sub_mul _ _ _

/-- A number of the format below 1 is at least one unit of the last place below it. -/
theorem le_of_lt_one {r : ℝ} (hr : Representable r) (hlt : r < 1) :
    r ≤ 1 - 2 ^ (-53 : ℤ) := by
  obtain ⟨n, e, hn, -, rfl⟩ := hr
  have hplace : (0 : ℝ) < 2 ^ (-53 : ℤ) := two_zpow_pos _
  have hwhole : (1 : ℝ) = (2 ^ 53 : ℤ) * 2 ^ (-53 : ℤ) := by norm_num
  by_cases he : -53 ≤ e
  · -- `r` is a multiple of the last place, so below `2 ^ 53` of them it has one less.
    obtain ⟨d, hd⟩ := Int.eq_ofNat_of_zero_le (show 0 ≤ e + 53 by omega)
    have hmultiple : (n : ℝ) * 2 ^ e = (n * 2 ^ d : ℤ) * 2 ^ (-53 : ℤ) := by
      have hexp : e = (d : ℤ) + -53 := by omega
      rw [hexp, zpow_add₀ two_ne_zero, zpow_natCast]
      push_cast
      ring
    rw [hmultiple, hwhole, mul_lt_mul_iff_left₀ hplace, Int.cast_lt] at hlt
    have hless : ((n * 2 ^ d : ℤ) : ℝ) ≤ (2 ^ 53 : ℤ) - 1 := by
      exact_mod_cast Int.le_sub_one_of_lt hlt
    calc (n : ℝ) * 2 ^ e = (n * 2 ^ d : ℤ) * 2 ^ (-53 : ℤ) := hmultiple
      _ ≤ ((2 ^ 53 : ℤ) - 1) * 2 ^ (-53 : ℤ) := mul_le_mul_of_nonneg_right hless hplace.le
      _ = 1 - 2 ^ (-53 : ℤ) := by rw [sub_mul, ← hwhole, one_mul]
  · have hn' : (n : ℝ) ≤ 2 ^ (53 : ℤ) := by exact_mod_cast (le_abs_self n).trans hn.le
    calc (n : ℝ) * 2 ^ e ≤ 2 ^ (53 : ℤ) * 2 ^ e :=
          mul_le_mul_of_nonneg_right hn' (two_zpow_pos e).le
      _ = 2 ^ (53 + e) := (zpow_add₀ two_ne_zero _ _).symm
      _ ≤ 2 ^ (-1 : ℤ) := zpow_le_zpow_right₀ one_le_two (by omega)
      _ ≤ 1 - 2 ^ (-53 : ℤ) := by norm_num

end Representable

theorem lastPlace_neg (x : ℝ) : lastPlace (-x) = lastPlace x := by
  rw [lastPlace, lastPlace, abs_neg]

private theorem abs_lt_two_zpow (x : ℝ) : |x| < 2 ^ (lastPlace x + 53) := by
  have hlog : |x| < 2 ^ (Int.log 2 |x| + 1) := Int.lt_zpow_succ_log_self (by norm_num) |x|
  refine lt_of_lt_of_le hlog (zpow_le_zpow_right₀ one_le_two ?_)
  have hmax := le_max_left (Int.log 2 |x| - 52) (-1074)
  unfold lastPlace
  omega

private theorem two_zpow_le_abs {x : ℝ} (hx : x ≠ 0) (hplace : lastPlace x ≠ -1074) :
    2 ^ (lastPlace x + 52) ≤ |x| := by
  have hlog : (2 : ℝ) ^ Int.log 2 |x| ≤ |x| := Int.zpow_log_le_self (by norm_num) (abs_pos.mpr hx)
  have heq : lastPlace x = Int.log 2 |x| - 52 := by
    unfold lastPlace at hplace ⊢
    omega
  rwa [heq, sub_add_cancel]

/-- The exponent of the last place is settled by the binade, or by the least place of all. -/
theorem lastPlace_eq {x : ℝ} {p : ℤ} (hp : -1074 ≤ p) (hhigh : |x| < 2 ^ (p + 53))
    (hlow : 2 ^ (p + 52) ≤ |x| ∨ p = -1074 ∧ x ≠ 0) : lastPlace x = p := by
  have hpos : 0 < |x| := by
    rcases hlow with hlow | ⟨-, hx⟩
    · exact lt_of_lt_of_le (two_zpow_pos _) hlow
    · exact abs_pos.mpr hx
  have hup : Int.log 2 |x| < p + 53 := (Int.lt_zpow_iff_log_lt (by norm_num) hpos).mp hhigh
  rcases hlow with hlow | ⟨rfl, -⟩
  · have hdown : p + 52 ≤ Int.log 2 |x| := (Int.zpow_le_iff_le_log (by norm_num) hpos).mp hlow
    unfold lastPlace
    omega
  · unfold lastPlace
    omega

/-! ## §3 Rounding -/

@[simp] theorem rounded_zero : rounded 0 = 0 := by
  simp [rounded, nearestEven]

@[simp] theorem rounded_neg (x : ℝ) : rounded (-x) = -rounded x := by
  rw [rounded, lastPlace_neg, neg_div, nearestEven_neg]
  push_cast
  rw [neg_mul, rounded]

/-- The mantissa that rounding chooses has at most 53 bits, or is the next power of two. -/
theorem abs_nearestEven_le (x : ℝ) : |nearestEven (x / 2 ^ lastPlace x)| ≤ 2 ^ 53 := by
  have hpow := two_zpow_pos (lastPlace x)
  have hsize : |x / 2 ^ lastPlace x| < 2 ^ 53 := by
    rw [abs_div, abs_of_pos hpow, div_lt_iff₀ hpow]
    calc |x| < 2 ^ (lastPlace x + 53) := abs_lt_two_zpow x
      _ = 2 ^ 53 * 2 ^ lastPlace x := by
        rw [add_comm, zpow_add₀ two_ne_zero]
        norm_cast
  -- An integer further out would be more than half a unit away.
  by_contra hlarge
  have hlarge' : (2 : ℝ) ^ 53 + 1 ≤ |(nearestEven (x / 2 ^ lastPlace x) : ℝ)| := by
    have hstep : (2 : ℤ) ^ 53 + 1 ≤ |nearestEven (x / 2 ^ lastPlace x)| := by omega
    exact_mod_cast hstep
  have hhalf := abs_nearestEven_sub_le (x / 2 ^ lastPlace x)
  have htriangle := abs_sub_abs_le_abs_sub (nearestEven (x / 2 ^ lastPlace x) : ℝ)
    (x / 2 ^ lastPlace x)
  linarith

/-- Above the least place, the mantissa that rounding chooses has its leading bit set. -/
theorem le_abs_nearestEven {x : ℝ} (hx : x ≠ 0) (hplace : lastPlace x ≠ -1074) :
    2 ^ 52 ≤ |nearestEven (x / 2 ^ lastPlace x)| := by
  have hpow := two_zpow_pos (lastPlace x)
  have hsize : 2 ^ 52 ≤ |x / 2 ^ lastPlace x| := by
    rw [abs_div, abs_of_pos hpow, le_div_iff₀ hpow]
    calc (2 : ℝ) ^ 52 * 2 ^ lastPlace x = 2 ^ (lastPlace x + 52) := by
          rw [add_comm, zpow_add₀ two_ne_zero]
          norm_cast
      _ ≤ |x| := two_zpow_le_abs hx hplace
  -- An integer further in would be more than half a unit away.
  by_contra hsmall
  have hsmall' : |(nearestEven (x / 2 ^ lastPlace x) : ℝ)| + 1 ≤ 2 ^ 52 := by
    have hstep : |nearestEven (x / 2 ^ lastPlace x)| + 1 ≤ 2 ^ 52 := by omega
    exact_mod_cast hstep
  have hhalf := abs_nearestEven_sub_le (x / 2 ^ lastPlace x)
  have htriangle := abs_sub_abs_le_abs_sub (x / 2 ^ lastPlace x)
    (nearestEven (x / 2 ^ lastPlace x) : ℝ)
  rw [abs_sub_comm] at htriangle
  linarith

/-- Rounding gives a representable number. -/
theorem representable_rounded (x : ℝ) : Representable (rounded x) :=
  Representable.of_le (abs_nearestEven_le x) (le_max_right _ _)

private theorem abs_rounded_sub_le_abs_multiple (x : ℝ) (k : ℤ) :
    |rounded x - x| ≤ |(k : ℝ) * 2 ^ lastPlace x - x| := by
  have hpow := two_zpow_pos (lastPlace x)
  -- Distances are those between mantissas, scaled by the last place.
  have hscale : ∀ n : ℤ, |(n : ℝ) * 2 ^ lastPlace x - x| =
      |(n : ℝ) - x / 2 ^ lastPlace x| * 2 ^ lastPlace x := by
    intro n
    rw [← abs_of_pos hpow, ← abs_mul, abs_of_pos hpow, sub_mul, div_mul_cancel₀ _ hpow.ne']
  rw [rounded, hscale, hscale]
  exact mul_le_mul_of_nonneg_right (abs_nearestEven_sub_le_abs _ k) hpow.le

/-- No representable number is nearer than the rounded one. -/
theorem abs_rounded_sub_le (x : ℝ) {y : ℝ} (hy : Representable y) : |rounded x - x| ≤ |y - x| := by
  by_cases hx : x = 0
  · simp [hx]
  obtain ⟨n, e, hn, he, rfl⟩ := hy
  by_cases hcoarse : lastPlace x ≤ e
  · -- `y` is a multiple of the last place of `x`.
    obtain ⟨d, hd⟩ := Int.eq_ofNat_of_zero_le (show 0 ≤ e - lastPlace x by omega)
    have hmultiple : (n : ℝ) * 2 ^ e = ((n * 2 ^ d : ℤ) : ℝ) * 2 ^ lastPlace x := by
      have hexp : e = (d : ℤ) + lastPlace x := by omega
      conv_lhs => rw [hexp, zpow_add₀ two_ne_zero, zpow_natCast]
      push_cast
      ring
    rw [hmultiple]
    exact abs_rounded_sub_le_abs_multiple x _
  · -- `y` is below the binade of `x`, whose least number is a multiple of the last place.
    have hbinade : 2 ^ (lastPlace x + 52) ≤ |x| := two_zpow_le_abs hx (by omega)
    have hsmall : |(n : ℝ) * 2 ^ e| ≤ 2 ^ (lastPlace x + 52) := by
      have hn' : |(n : ℝ)| ≤ 2 ^ (53 : ℤ) := by exact_mod_cast hn.le
      have hpow := two_zpow_pos e
      calc |(n : ℝ) * 2 ^ e| = |(n : ℝ)| * 2 ^ e := by rw [abs_mul, abs_of_pos hpow]
        _ ≤ 2 ^ (53 : ℤ) * 2 ^ e := mul_le_mul_of_nonneg_right hn' hpow.le
        _ = 2 ^ (53 + e) := (zpow_add₀ two_ne_zero 53 e).symm
        _ ≤ 2 ^ (lastPlace x + 52) := zpow_le_zpow_right₀ one_le_two (by omega)
    have hedge : (2 : ℝ) ^ (lastPlace x + 52) = ((2 ^ 52 : ℤ) : ℝ) * 2 ^ lastPlace x := by
      rw [add_comm, zpow_add₀ two_ne_zero]
      norm_cast
    -- So that least number is nearer to `x` than `y` is, on either side of zero.
    have hfar : |x| - 2 ^ (lastPlace x + 52) ≤ |(n : ℝ) * 2 ^ e - x| := by
      have htriangle := abs_sub_abs_le_abs_sub x ((n : ℝ) * 2 ^ e)
      rw [abs_sub_comm x] at htriangle
      linarith
    rcases le_total 0 x with hsign | hsign
    · have hnear := abs_rounded_sub_le_abs_multiple x (2 ^ 52)
      rw [abs_of_nonneg hsign] at hbinade hfar
      rw [← hedge, abs_of_nonpos (sub_nonpos.mpr hbinade)] at hnear
      linarith
    · have hnear := abs_rounded_sub_le_abs_multiple x (-2 ^ 52)
      rw [Int.cast_neg, neg_mul, ← hedge] at hnear
      rw [abs_of_nonpos hsign] at hbinade hfar
      rw [abs_of_nonneg (show 0 ≤ -2 ^ (lastPlace x + 52) - x by linarith)] at hnear
      linarith

/-- A representable number is rounded to itself. -/
theorem Representable.rounded_eq {x : ℝ} (hx : Representable x) : rounded x = x := by
  -- `x` is itself a candidate, and at distance zero.
  have hnear := abs_rounded_sub_le x hx
  rw [sub_self, abs_zero] at hnear
  exact sub_eq_zero.mp (abs_eq_zero.mp (le_antisymm hnear (abs_nonneg _)))

private theorem midpoint_le {a b x : ℝ} (hab : a < b) (hx : |b - x| ≤ |a - x|) : a + b ≤ 2 * x := by
  by_contra hfar
  have hcloser : |a - x| < b - x := abs_lt.mpr ⟨by linarith, by linarith⟩
  exact absurd (hx.trans_lt hcloser) (not_lt.mpr (le_abs_self _))

/-- Rounding never reverses an order. -/
theorem rounded_mono {x y : ℝ} (hxy : x ≤ y) : rounded x ≤ rounded y := by
  rcases eq_or_lt_of_le hxy with rfl | hlt
  · exact le_rfl
  -- Were the results in the wrong order, `x` would not lie below their midpoint nor `y` above it.
  by_contra hcross
  have hgap := not_le.mp hcross
  have hx := midpoint_le hgap (abs_rounded_sub_le x (representable_rounded y))
  have hy : -rounded x + -rounded y ≤ 2 * -y := by
    apply midpoint_le (neg_lt_neg hgap)
    have hnear := abs_rounded_sub_le y (representable_rounded x)
    rwa [neg_sub_neg, neg_sub_neg, abs_sub_comm y, abs_sub_comm y]
  linarith

theorem rounded_nonneg {x : ℝ} (hx : 0 ≤ x) : 0 ≤ rounded x := by
  simpa using rounded_mono hx

theorem rounded_nonpos {x : ℝ} (hx : x ≤ 0) : rounded x ≤ 0 := by
  simpa using rounded_mono hx

theorem abs_rounded (x : ℝ) : |rounded x| = rounded |x| := by
  rcases le_total 0 x with hx | hx
  · rw [abs_of_nonneg hx, abs_of_nonneg (rounded_nonneg hx)]
  · rw [abs_of_nonpos hx, rounded_neg, abs_of_nonpos (rounded_nonpos hx)]

theorem abs_rounded_mono {x y : ℝ} (hxy : |x| ≤ |y|) : |rounded x| ≤ |rounded y| := by
  rw [abs_rounded, abs_rounded]
  exact rounded_mono hxy

/-- Rounding stays below every representable bound. -/
theorem rounded_le {x y : ℝ} (hy : Representable y) (hxy : x ≤ y) : rounded x ≤ y := by
  simpa [hy.rounded_eq] using rounded_mono hxy

/-- Rounding stays above every representable bound. -/
theorem le_rounded {x y : ℝ} (hy : Representable y) (hxy : y ≤ x) : y ≤ rounded x := by
  simpa [hy.rounded_eq] using rounded_mono hxy

/-- The relative error of one rounding. -/
noncomputable def unitRoundoff : ℝ :=
  2 ^ (-53 : ℤ)

/-- Rounding moves a number by at most half of its last place. -/
theorem abs_rounded_sub_self_le (x : ℝ) : |rounded x - x| ≤ 1 / 2 * 2 ^ lastPlace x := by
  have hpow := two_zpow_pos (lastPlace x)
  calc |rounded x - x|
      = |nearestEven (x / 2 ^ lastPlace x) - x / 2 ^ lastPlace x| * 2 ^ lastPlace x := by
        rw [← abs_of_pos hpow, ← abs_mul, abs_of_pos hpow, sub_mul, div_mul_cancel₀ _ hpow.ne',
          rounded]
    _ ≤ 1 / 2 * 2 ^ lastPlace x := mul_le_mul_of_nonneg_right (abs_nearestEven_sub_le _) hpow.le

private theorem half_lastPlace_le {x : ℝ} (hx : 2 ^ (lastPlace x + 52) ≤ |x|) :
    1 / 2 * 2 ^ lastPlace x ≤ unitRoundoff * |x| := by
  calc 1 / 2 * 2 ^ lastPlace x = unitRoundoff * 2 ^ (lastPlace x + 52) := by
        rw [unitRoundoff, zpow_add₀ two_ne_zero, mul_comm (2 ^ lastPlace x), ← mul_assoc]
        norm_num
    _ ≤ unitRoundoff * |x| := mul_le_mul_of_nonneg_left hx (two_zpow_pos _).le

/-- Any number is moved by at most `2 ^ -53` of itself, or by half of the least place. -/
theorem abs_rounded_sub_self_le_add (x : ℝ) :
    |rounded x - x| ≤ unitRoundoff * |x| + 2 ^ (-1075 : ℤ) := by
  have hmoved := abs_rounded_sub_self_le x
  have hrelative : 0 ≤ unitRoundoff * |x| := mul_nonneg (two_zpow_pos _).le (abs_nonneg x)
  have hleast := two_zpow_pos (-1075)
  by_cases hx : x = 0
  · simp [hx]
  by_cases hplace : lastPlace x = -1074
  · have hhalf : (1 : ℝ) / 2 * 2 ^ (-1074 : ℤ) = 2 ^ (-1075 : ℤ) := by
      rw [show (-1074 : ℤ) = 1 + -1075 by norm_num, zpow_add₀ two_ne_zero, zpow_one, ← mul_assoc,
        one_div_mul_cancel two_ne_zero, one_mul]
    rw [hplace, hhalf] at hmoved
    linarith
  · have hnormal := half_lastPlace_le (two_zpow_le_abs hx hplace)
    linarith

/-- From the least normal number on, rounding moves a number by at most `2 ^ -53` of itself. -/
theorem rounded_mem {x : ℝ} (hx : 2 ^ (-1022 : ℤ) ≤ x) :
    x * (1 - unitRoundoff) ≤ rounded x ∧ rounded x ≤ x * (1 + unitRoundoff) := by
  have hpos : 0 < x := (two_zpow_pos _).trans_le hx
  have hplace : 2 ^ (lastPlace x + 52) ≤ |x| := by
    by_cases hleast : lastPlace x = -1074
    · rw [hleast, abs_of_pos hpos]
      exact hx
    · exact two_zpow_le_abs hpos.ne' hleast
  have herror := (abs_rounded_sub_self_le x).trans (half_lastPlace_le hplace)
  rw [abs_of_pos hpos] at herror
  obtain ⟨hlow, hhigh⟩ := abs_le.mp herror
  constructor <;> linarith

/-! ## §4 Rounding to the format -/

/-- The least power of two above all finite numbers. -/
noncomputable def overflow : ℝ :=
  2 ^ (1024 : ℤ)

/-- `x` rounded, and moved to an end of the line if that is beyond the format. -/
noncomputable def nearest (x : ℝ) : EReal :=
  if overflow ≤ rounded x then ⊤ else if rounded x ≤ -overflow then ⊥ else (rounded x : ℝ)

theorem overflow_pos : 0 < overflow :=
  two_zpow_pos 1024

theorem nearest_of_abs_lt {x : ℝ} (hx : |rounded x| < overflow) :
    nearest x = (rounded x : ℝ) := by
  obtain ⟨hlow, hhigh⟩ := abs_lt.mp hx
  rw [nearest, if_neg (not_le.mpr hhigh), if_neg (not_le.mpr hlow)]

theorem nearest_of_le {x : ℝ} (hx : overflow ≤ rounded x) : nearest x = ⊤ :=
  if_pos hx

theorem nearest_of_le_neg {x : ℝ} (hx : rounded x ≤ -overflow) : nearest x = ⊥ := by
  have hpos := overflow_pos
  rw [nearest, if_neg (by linarith), if_pos hx]

theorem nearest_mono {x y : ℝ} (hxy : x ≤ y) : nearest x ≤ nearest y := by
  have hrounded := rounded_mono hxy
  by_cases htop : overflow ≤ rounded y
  · rw [nearest_of_le htop]
    exact le_top
  by_cases hbot : rounded x ≤ -overflow
  · rw [nearest_of_le_neg hbot]
    exact bot_le
  rw [not_le] at htop hbot
  rw [nearest_of_abs_lt (abs_lt.mpr ⟨hbot, by linarith⟩),
    nearest_of_abs_lt (abs_lt.mpr ⟨by linarith, htop⟩)]
  exact EReal.coe_le_coe_iff.mpr hrounded

/-! ## §5 Readings as real numbers -/

open Float.Model Float.Model.UnpackedFloat

/-- The sign as a factor. -/
noncomputable def signFactor : Sign → ℝ
  | .negative => -1
  | .positive => 1

/-- The number that a finite reading stands for. -/
noncomputable def finiteValue : UnpackedFloat → ℝ
  | .finite s m e _ => signFactor s * (m * 2 ^ e)
  | _ => 0

theorem magnitude_pos {m : ℕ} (hm : 0 < m) (e : ℤ) : (0 : ℝ) < m * 2 ^ e :=
  mul_pos (Nat.cast_pos.mpr hm) (two_zpow_pos e)

theorem magnitude_lt_two_zpow {m : ℕ} (hm : m < 2 ^ 53) (e : ℤ) :
    (m : ℝ) * 2 ^ e < 2 ^ (53 + e) := by
  have hm' : (m : ℝ) < 2 ^ (53 : ℤ) := by exact_mod_cast hm
  calc (m : ℝ) * 2 ^ e < 2 ^ (53 : ℤ) * 2 ^ e := mul_lt_mul_of_pos_right hm' (two_zpow_pos e)
    _ = 2 ^ (53 + e) := (zpow_add₀ two_ne_zero _ _).symm

theorem two_zpow_le_magnitude {m : ℕ} (hm : 2 ^ 52 ≤ m) (e : ℤ) :
    (2 : ℝ) ^ (52 + e) ≤ m * 2 ^ e := by
  have hm' : (2 : ℝ) ^ (52 : ℤ) ≤ m := by exact_mod_cast hm
  calc (2 : ℝ) ^ (52 + e) = 2 ^ (52 : ℤ) * 2 ^ e := zpow_add₀ two_ne_zero _ _
    _ ≤ m * 2 ^ e := mul_le_mul_of_nonneg_right hm' (two_zpow_pos e).le

end OnlineAggregation.Binary64
