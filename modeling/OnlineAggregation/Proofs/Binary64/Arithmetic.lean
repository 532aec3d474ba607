import OnlineAggregation.Proofs.Binary64.Operations
import OnlineAggregation.Proofs.Binary64.Order

/-!
# Arithmetic on binary64 numbers

Main statements: an operation on numbers that stand for real numbers gives the exact result
rounded to the format, with an infinity for what lies beyond it; and sums, quotients and roots of
numbers that are not negative are not negative, infinities included.
-/

namespace OnlineAggregation.Binary64

open Float.Model Float.Model.UnpackedFloat

/-! ## §1 Results written down -/

variable {u : UnpackedFloat} {x y : Float} {r t : ℝ}

private theorem overflow_le_magnitude_iff {s : Sign} {m : ℕ} {e : ℤ} {hm : 0 < m}
    (hu : Canonical (.finite s m e hm)) : overflow ≤ (m : ℝ) * 2 ^ e ↔ 972 ≤ e := by
  obtain ⟨hhigh, hleast, hlow⟩ := hu
  constructor
  · intro hlarge
    by_contra hsmall
    refine absurd hlarge (not_le.mpr ?_)
    calc (m : ℝ) * 2 ^ e < 2 ^ (53 + e) := magnitude_lt_two_zpow hhigh e
      _ ≤ overflow := zpow_le_zpow_right₀ one_le_two (by omega)
  · intro hlarge
    -- So large an exponent is not the least one, and the leading bit is set.
    have hlead : 2 ^ 52 ≤ m := hlow.resolve_right (by omega)
    calc overflow ≤ 2 ^ (52 + e) := zpow_le_zpow_right₀ one_le_two (by omega)
      _ ≤ m * 2 ^ e := two_zpow_le_magnitude hlead e

private theorem extendedValue_clip (hu : Rounds u r) :
    (clip u).isNaN = false ∧ extendedValue (clip u) = nearest r := by
  obtain ⟨hcanonical, hfinite, hvalue⟩ := hu
  rcases isFinite_cases hfinite with ⟨s, rfl⟩ | ⟨s, m, e, hm, rfl⟩
  · have hzero : rounded r = 0 := hvalue.symm
    rw [nearest_of_abs_lt (by rw [hzero, abs_zero]; exact overflow_pos), hzero]
    exact ⟨rfl, rfl⟩
  · have hiff := overflow_le_magnitude_iff hcanonical
    have hpos : 0 < (m : ℝ) * 2 ^ e := magnitude_pos hm e
    by_cases hlarge : 972 ≤ e
    · rw [clip, if_pos hlarge]
      refine ⟨rfl, ?_⟩
      -- The exponent tells whether the magnitude has reached the overflow bound.
      have hover := hiff.mpr hlarge
      cases s with
      | positive =>
        rw [nearest_of_le (by rw [← hvalue, finiteValue, signFactor]; linarith)]
        rfl
      | negative =>
        rw [nearest_of_le_neg (by rw [← hvalue, finiteValue, signFactor]; linarith)]
        rfl
    · rw [clip, if_neg hlarge]
      refine ⟨rfl, ?_⟩
      have hsmall : |finiteValue (.finite s m e hm)| < overflow := by
        have habs : |finiteValue (.finite s m e hm)| = m * 2 ^ e := by
          cases s <;> simp [finiteValue, signFactor, abs_of_pos (two_zpow_pos e)]
        rw [habs]
        exact not_le.mp (mt hiff.mp hlarge)
      rw [nearest_of_abs_lt (by rwa [← hvalue]), ← hvalue]
      rfl

/-- A rounded result is the nearest point once it is written down. -/
theorem reads_pack (hu : Rounds u r) : Reads (.ofModel (.pack u)) (nearest r) := by
  obtain ⟨hnan, hvalue⟩ := extendedValue_clip hu
  rw [← unpack_pack hu.canonical] at hnan hvalue
  exact ⟨hnan, hvalue⟩

/-- What a number stands for has a finite canonical reading. -/
theorem Reads.unpack (hx : Reads x r) :
    Canonical x.toModel.unpack ∧ x.toModel.unpack.isFinite = true ∧
      finiteValue x.toModel.unpack = r := by
  have hfinite : x.toModel.unpack.isFinite = true := hx.isFinite
  refine ⟨(canonical_unpack _).1, hfinite, ?_⟩
  have hvalue := hx.extendedValue_eq
  rw [extendedValue_of_isFinite hfinite] at hvalue
  exact EReal.coe_eq_coe_iff.mp hvalue

theorem Reads.representable (hx : Reads x r) : Representable r := by
  obtain ⟨hcanonical, -, rfl⟩ := hx.unpack
  exact representable_finiteValue hcanonical

theorem Reads.abs_lt_overflow (hx : Reads x r) : |r| < overflow := by
  obtain ⟨hcanonical, hfinite, hvalue⟩ := hx.unpack
  have hclip := (canonical_unpack x.toModel).2
  have hself := extendedValue_clip (rounds_self hcanonical hfinite)
  rw [hclip, extendedValue_of_isFinite hfinite, hvalue] at hself
  -- A number that large would be read as an infinity, which stands for no real number.
  by_contra hlarge
  have hrounded := hx.representable.rounded_eq
  rcases le_abs.mp (not_lt.mp hlarge) with hpos | hneg
  · rw [nearest_of_le (by rwa [hrounded])] at hself
    exact EReal.coe_ne_top r hself.2
  · rw [nearest_of_le_neg (by rw [hrounded]; linarith)] at hself
    exact EReal.coe_ne_bot r hself.2

/-- A number of the format is its own nearest point. -/
theorem Reads.nearest_eq (hx : Reads x r) : nearest r = r := by
  have hrounded := hx.representable.rounded_eq
  rw [nearest_of_abs_lt (by rw [hrounded]; exact hx.abs_lt_overflow), hrounded]

/-- A result that did not overflow is the rounded one. -/
theorem Reads.of_nearest (hx : Reads x (nearest r)) (hr : |rounded r| < overflow) :
    Reads x (rounded r : ℝ) := by
  rwa [nearest_of_abs_lt hr] at hx

theorem Reads.abs_lt_of_isFinite (hx : Reads x (nearest r)) (hfinite : x.isFinite = true) :
    |rounded r| < overflow := by
  obtain ⟨s, hs⟩ := isFinite_iff_exists_reads.mp hfinite
  by_contra hlarge
  rcases le_abs.mp (not_lt.mp hlarge) with hpos | hneg
  · rw [nearest_of_le hpos] at hx
    exact EReal.coe_ne_top s (hs.unique hx)
  · rw [nearest_of_le_neg (by linarith)] at hx
    exact EReal.coe_ne_bot s (hs.unique hx)

theorem Reads.isFinite_nearest_iff (hx : Reads x (nearest r)) :
    x.isFinite = true ↔ |rounded r| < overflow :=
  ⟨hx.abs_lt_of_isFinite, fun hr => (hx.of_nearest hr).isFinite⟩

theorem two_zpow_lt_overflow {k : ℤ} (hk : k < 1024) : (2 : ℝ) ^ k < overflow :=
  zpow_lt_zpow_right₀ one_lt_two hk

/-- A result between two powers of two of the format stays between them when it is rounded. -/
theorem Reads.of_mem_zpow {i j : ℤ} (hx : Reads x (nearest r)) (hlow : 2 ^ i ≤ r)
    (hhigh : r ≤ 2 ^ j) (hi : -1074 ≤ i := by norm_num) (hj : j < 1024 := by norm_num) :
    2 ^ i ≤ rounded r ∧ rounded r ≤ 2 ^ j ∧ Reads x (rounded r : ℝ) := by
  have hij : i ≤ j := (zpow_le_zpow_iff_right₀ one_lt_two).mp (hlow.trans hhigh)
  have hlow' : 2 ^ i ≤ rounded r := le_rounded (Representable.two_zpow hi) hlow
  have hhigh' : rounded r ≤ 2 ^ j := rounded_le (Representable.two_zpow (hi.trans hij)) hhigh
  refine ⟨hlow', hhigh', hx.of_nearest ?_⟩
  rw [abs_of_pos ((two_zpow_pos i).trans_le hlow')]
  exact hhigh'.trans_lt (two_zpow_lt_overflow hj)

/-! ## §2 The operations -/

theorem Reads.add (hx : Reads x r) (hy : Reads y t) : Reads (x + y) (nearest (r + t)) := by
  obtain ⟨hcx, hfx, rfl⟩ := hx.unpack
  obtain ⟨hcy, hfy, rfl⟩ := hy.unpack
  exact reads_pack (rounds_add hcx hcy hfx hfy)

theorem Reads.neg (hx : Reads x r) : Reads (-x) ((-r : ℝ) : EReal) := by
  have hrounded := hx.representable.neg.rounded_eq
  have hsmall : |rounded (-r)| < overflow := by
    rw [hrounded, abs_neg]
    exact hx.abs_lt_overflow
  obtain ⟨hcx, hfx, rfl⟩ := hx.unpack
  have hneg := reads_pack (rounds_self (canonical_neg hcx) (isFinite_neg.trans hfx))
  rw [finiteValue_neg, nearest_of_abs_lt hsmall, hrounded] at hneg
  exact hneg

theorem Reads.sub (hx : Reads x r) (hy : Reads y t) : Reads (x - y) (nearest (r - t)) := by
  obtain ⟨hcx, hfx, rfl⟩ := hx.unpack
  obtain ⟨hcy, hfy, rfl⟩ := hy.unpack
  exact reads_pack (rounds_sub hcx hcy hfx hfy)

theorem Reads.mul (hx : Reads x r) (hy : Reads y t) : Reads (x * y) (nearest (r * t)) := by
  obtain ⟨hcx, hfx, rfl⟩ := hx.unpack
  obtain ⟨hcy, hfy, rfl⟩ := hy.unpack
  exact reads_pack (rounds_mul hcx hcy hfx hfy)

theorem Reads.div (hx : Reads x r) (hy : Reads y t) (ht : t ≠ 0) :
    Reads (x / y) (nearest (r / t)) := by
  obtain ⟨hcx, hfx, rfl⟩ := hx.unpack
  obtain ⟨hcy, hfy, rfl⟩ := hy.unpack
  exact reads_pack (rounds_div hcx hcy hfx hfy ht)

theorem Reads.sqrt (hx : Reads x r) (hr : 0 ≤ r) : Reads x.sqrt (nearest √r) := by
  obtain ⟨hcx, hfx, rfl⟩ := hx.unpack
  exact reads_pack (rounds_sqrt hcx hfx hr)

theorem reads_zero : Reads 0.0 0 :=
  ⟨rfl, rfl⟩

private theorem reads_one : Reads (Float.ofBits 0x3FF0000000000000) 1 := by
  refine ⟨rfl, ?_⟩
  change ((1 * (((2 ^ 52 : ℕ) : ℝ) * 2 ^ (-52 : ℤ)) : ℝ) : EReal) = 1
  norm_num

theorem reads_literal_one : Reads 1.0 (1 : ℝ) := by
  have hbits : (1.0 : Float) = Float.ofBits 0x3FF0000000000000 := by decide
  rw [hbits]
  exact reads_one

theorem representable_natCast {k : ℕ} (hk : k ≤ 2 ^ 53) : Representable (k : ℝ) := by
  have hle := @Representable.of_le k 0 (by rw [Nat.abs_cast]; exact_mod_cast hk) (by norm_num)
  simpa using hle

private theorem reads_word {n : ℕ} (hn : n < 2 ^ 53) : Reads n.toUInt64.toFloat (n : ℝ) := by
  have hword : n.toUInt64.toNat = n := by
    rw [Nat.toUInt64, UInt64.toNat_ofNat']
    omega
  have hreads := reads_pack (rounds_ofNat n)
  have hrepresentable : Representable (n : ℝ) := representable_natCast hn.le
  have hsmall : |rounded (n : ℝ)| < overflow := by
    rw [hrepresentable.rounded_eq, Nat.abs_cast]
    calc (n : ℝ) < 2 ^ (53 : ℤ) := by exact_mod_cast hn
      _ ≤ overflow := zpow_le_zpow_right₀ one_le_two (by norm_num)
  rw [nearest_of_abs_lt hsmall, hrepresentable.rounded_eq] at hreads
  change Reads (.ofModel (.pack (UnpackedFloat.ofNat Format.binary64 n.toUInt64.toNat))) _
  rwa [hword]

/-- A count enters arithmetic rounded. -/
theorem reads_ofNat (n : ℕ) : Reads (Float.ofNat n) (nearest n) := by
  change Reads (Float.ofScientific n false 0) _
  unfold Float.ofScientific
  -- Up to 53 bits the word is converted and multiplied by one; longer numbers are read as decimals.
  by_cases hn : n < 2 ^ 53
  · rw [dif_pos ⟨hn, by norm_num⟩]
    have hreads := (reads_word hn).mul reads_one
    rwa [mul_one] at hreads
  · rw [dif_neg (fun h => hn h.1)]
    have hreads := reads_pack (rounds_ofScientific (n := n) (by omega) (k := 0) (by norm_num))
    rwa [pow_zero, mul_one] at hreads

/-- A large power of ten enters arithmetic rounded. -/
theorem reads_ten_pow {k : ℕ} (hlarge : 22 < k) (hk : k ≤ 2048) :
    Reads (OfScientific.ofScientific 1 false k) (nearest (10 ^ k : ℕ)) := by
  change Reads (Float.ofScientific 1 false k) _
  unfold Float.ofScientific
  rw [dif_neg (by omega)]
  have hreads := reads_pack (rounds_ofScientific one_pos hk)
  rwa [one_mul] at hreads

/-- A small count enters arithmetic as it is. -/
theorem reads_natCast {n : ℕ} (hn : n ≤ 2 ^ 53) : Reads (Float.ofNat n) (n : ℝ) := by
  have hrounded := (representable_natCast hn).rounded_eq
  have hsmall : |rounded (n : ℝ)| < overflow := by
    rw [hrounded, Nat.abs_cast]
    calc (n : ℝ) ≤ 2 ^ (53 : ℤ) := by exact_mod_cast hn
      _ < overflow := zpow_lt_zpow_right₀ one_lt_two (by norm_num)
  have hreads := (reads_ofNat n).of_nearest hsmall
  rwa [hrounded] at hreads

/-- A count of the machine stands for a real number, not below any small count that it reaches. -/
theorem exists_reads_ofNat {k n : ℕ} (hkn : k ≤ n) (hk : k ≤ 2 ^ 53) (hn : n < 2 ^ 64) :
    ∃ t : ℝ, (k : ℝ) ≤ t ∧ Reads (Float.ofNat n) t := by
  have hlow : (k : ℝ) ≤ rounded n :=
    le_rounded (representable_natCast hk) (Nat.cast_le.mpr hkn)
  have hhigh : rounded n ≤ 2 ^ (64 : ℤ) := by
    apply rounded_le (Representable.two_zpow (by norm_num))
    exact_mod_cast hn.le
  have hsmall : |rounded n| < overflow := by
    rw [abs_of_nonneg ((Nat.cast_nonneg k).trans hlow)]
    exact hhigh.trans_lt (zpow_lt_zpow_right₀ one_lt_two (by norm_num))
  refine ⟨rounded n, hlow, ?_⟩
  rw [← nearest_of_abs_lt hsmall]
  exact reads_ofNat n

/-! ## §3 Operations with an infinity -/

private theorem unpack_of_reads_top (hx : Reads x ⊤) :
    x.toModel.unpack = .infinity .positive := by
  obtain ⟨-, hvalue⟩ := hx
  cases hu : x.toModel.unpack with
  | infinity s =>
    cases s with
    | positive => rfl
    | negative =>
      rw [hu] at hvalue
      exact absurd hvalue bot_ne_top
  | zero s =>
    rw [hu] at hvalue
    exact absurd hvalue (EReal.coe_ne_top _)
  | finite s m e hm =>
    rw [hu] at hvalue
    exact absurd hvalue (EReal.coe_ne_top _)
  | notANumber =>
    rw [hu] at hvalue
    exact absurd hvalue (EReal.coe_ne_top _)

private theorem reads_top (hu : u = .infinity .positive) : Reads (.ofModel (.pack u)) ⊤ := by
  rw [hu]
  exact ⟨rfl, rfl⟩

private theorem reads_bot (hu : u = .infinity .negative) : Reads (.ofModel (.pack u)) ⊥ := by
  rw [hu]
  exact ⟨rfl, rfl⟩

theorem Reads.top_add_top (hx : Reads x ⊤) (hy : Reads y ⊤) : Reads (x + y) ⊤ := by
  apply reads_top
  rw [unpack_of_reads_top hx, unpack_of_reads_top hy]
  rfl

theorem Reads.top_add (hx : Reads x ⊤) (hy : Reads y t) : Reads (x + y) ⊤ := by
  apply reads_top
  rw [unpack_of_reads_top hx]
  obtain ⟨-, hfinite, -⟩ := hy.unpack
  rcases isFinite_cases hfinite with ⟨s, hw⟩ | ⟨s, m, e, hm, hw⟩
  · rw [hw]
    rfl
  · rw [hw]
    rfl

theorem Reads.add_top (hx : Reads x r) (hy : Reads y ⊤) : Reads (x + y) ⊤ := by
  apply reads_top
  rw [unpack_of_reads_top hy]
  obtain ⟨-, hfinite, -⟩ := hx.unpack
  rcases isFinite_cases hfinite with ⟨s, hw⟩ | ⟨s, m, e, hm, hw⟩
  · rw [hw]
    rfl
  · rw [hw]
    rfl

theorem Reads.sub_top (hx : Reads x r) (hy : Reads y ⊤) : Reads (x - y) ⊥ := by
  apply reads_bot
  rw [unpack_of_reads_top hy]
  obtain ⟨-, hfinite, -⟩ := hx.unpack
  rcases isFinite_cases hfinite with ⟨s, hw⟩ | ⟨s, m, e, hm, hw⟩
  · rw [hw]
    rfl
  · rw [hw]
    rfl

theorem unpack_of_reads_pos (hx : Reads x t) (ht : 0 < t) :
    ∃ m e hm, x.toModel.unpack = .finite .positive m e hm := by
  obtain ⟨-, hfinite, hvalue⟩ := hx.unpack
  rcases isFinite_cases hfinite with ⟨s, hw⟩ | ⟨s, m, e, hm, hw⟩
  · rw [hw] at hvalue
    exact absurd (show (0 : ℝ) = t from hvalue) ht.ne
  · cases s with
    | positive => exact ⟨m, e, hm, hw⟩
    | negative =>
      have hpos : 0 < (m : ℝ) * 2 ^ e := magnitude_pos hm e
      rw [hw, finiteValue, signFactor] at hvalue
      linarith

theorem Reads.top_mul_top (hx : Reads x ⊤) (hy : Reads y ⊤) : Reads (x * y) ⊤ := by
  apply reads_top
  rw [unpack_of_reads_top hx, unpack_of_reads_top hy]
  rfl

theorem Reads.top_mul (hx : Reads x ⊤) (hy : Reads y t) (ht : 0 < t) : Reads (x * y) ⊤ := by
  obtain ⟨m, e, hm, hw⟩ := unpack_of_reads_pos hy ht
  apply reads_top
  rw [unpack_of_reads_top hx, hw]
  rfl

theorem Reads.top_div (hx : Reads x ⊤) (hy : Reads y t) (ht : 0 < t) : Reads (x / y) ⊤ := by
  obtain ⟨m, e, hm, hw⟩ := unpack_of_reads_pos hy ht
  apply reads_top
  rw [unpack_of_reads_top hx, hw]
  rfl

/-- Divided by infinity a real number vanishes. -/
theorem Reads.div_top (hx : Reads x r) (hy : Reads y ⊤) : Reads (x / y) 0 := by
  obtain ⟨-, hfinite, -⟩ := hx.unpack
  have hzero : ∃ s, UnpackedFloat.div Format.binary64 x.toModel.unpack y.toModel.unpack =
      .zero s := by
    rw [unpack_of_reads_top hy]
    rcases isFinite_cases hfinite with ⟨s, hw⟩ | ⟨s, m, e, hm, hw⟩ <;> rw [hw] <;> exact ⟨_, rfl⟩
  obtain ⟨s, hs⟩ := hzero
  change Reads (.ofModel (.pack (UnpackedFloat.div Format.binary64 _ _))) 0
  rw [hs]
  cases s <;> exact ⟨rfl, rfl⟩

theorem Reads.sqrt_top (hx : Reads x ⊤) : Reads x.sqrt ⊤ := by
  apply reads_top
  rw [unpack_of_reads_top hx]
  rfl

private theorem isFinite_pack {u : UnpackedFloat}
    (h : (Float.ofModel (.pack u)).isFinite = true) : u.isFinite = true := by
  cases u with
  | infinity s =>
    cases s
    · exact absurd h (by decide)
    · exact absurd h (by decide)
  | notANumber => exact absurd h (by decide)
  | zero s => rfl
  | finite s m e hm => rfl

private theorem isFinite_of_isFinite_add {u w : UnpackedFloat}
    (h : (UnpackedFloat.add Format.binary64 u w).isFinite = true) :
    u.isFinite = true ∧ w.isFinite = true := by
  cases u with
  | infinity s =>
    cases w with
    | infinity t =>
      -- Two infinities give an infinity or NaN.
      rw [UnpackedFloat.add] at h
      split at h <;> exact absurd (show false = true from h) Bool.false_ne_true
    | _ => exact absurd (show false = true from h) Bool.false_ne_true
  | notANumber => exact absurd (show false = true from h) Bool.false_ne_true
  | zero s =>
    cases w with
    | infinity t => exact absurd (show false = true from h) Bool.false_ne_true
    | notANumber => exact absurd (show false = true from h) Bool.false_ne_true
    | _ => exact ⟨rfl, rfl⟩
  | finite s m e hm =>
    cases w with
    | infinity t => exact absurd (show false = true from h) Bool.false_ne_true
    | notANumber => exact absurd (show false = true from h) Bool.false_ne_true
    | _ => exact ⟨rfl, rfl⟩

private theorem isFinite_of_isFinite_mul {u w : UnpackedFloat}
    (h : (UnpackedFloat.mul Format.binary64 u w).isFinite = true) :
    u.isFinite = true ∧ w.isFinite = true := by
  cases u with
  | infinity s =>
    -- A product with an infinity is an infinity or NaN.
    cases w <;> exact absurd (show false = true from h) Bool.false_ne_true
  | notANumber => exact absurd (show false = true from h) Bool.false_ne_true
  | zero s =>
    cases w with
    | infinity t => exact absurd (show false = true from h) Bool.false_ne_true
    | notANumber => exact absurd (show false = true from h) Bool.false_ne_true
    | _ => exact ⟨rfl, rfl⟩
  | finite s m e hm =>
    cases w with
    | infinity t => exact absurd (show false = true from h) Bool.false_ne_true
    | notANumber => exact absurd (show false = true from h) Bool.false_ne_true
    | _ => exact ⟨rfl, rfl⟩

private theorem isFinite_of_isFinite_div {u w : UnpackedFloat}
    (h : (UnpackedFloat.div Format.binary64 u w).isFinite = true) (hw : w.isFinite = true) :
    u.isFinite = true := by
  cases u with
  | zero s => rfl
  | finite s m e hm => rfl
  | notANumber => exact absurd (show false = true from h) Bool.false_ne_true
  | infinity s =>
    -- By a finite divisor, an infinity stays one.
    cases w with
    | infinity t => exact absurd (show false = true from hw) Bool.false_ne_true
    | notANumber => exact absurd (show false = true from hw) Bool.false_ne_true
    | _ => exact absurd (show false = true from h) Bool.false_ne_true

/-- Nothing finite comes from a division by zero. -/
theorem Reads.not_isFinite_div_zero (hy : Reads y (0 : ℝ)) : ¬ (x / y).isFinite = true := by
  obtain ⟨-, hfinite, hvalue⟩ := hy.unpack
  intro h
  have hquotient := isFinite_pack h
  rcases isFinite_cases hfinite with ⟨s, hw⟩ | ⟨s, m, e, hm, hw⟩
  · rw [hw] at hquotient
    cases hu : x.toModel.unpack <;> rw [hu] at hquotient <;>
      exact absurd (show false = true from hquotient) Bool.false_ne_true
  · have hpos : 0 < (m : ℝ) * 2 ^ e := magnitude_pos hm e
    rw [hw, finiteValue] at hvalue
    cases s <;> simp only [signFactor] at hvalue <;> linarith

/-- A finite sum has finite terms. -/
theorem isFinite_of_add (h : (x + y).isFinite = true) : x.isFinite = true ∧ y.isFinite = true :=
  isFinite_of_isFinite_add (isFinite_pack h)

/-- A finite product has finite factors. -/
theorem isFinite_of_mul (h : (x * y).isFinite = true) : x.isFinite = true ∧ y.isFinite = true :=
  isFinite_of_isFinite_mul (isFinite_pack h)

/-- A finite quotient by a finite number has a finite dividend. -/
theorem isFinite_of_div (h : (x / y).isFinite = true) (hy : y.isFinite = true) :
    x.isFinite = true :=
  isFinite_of_isFinite_div (isFinite_pack h) hy

/-- By infinity too: the quotient of two infinities is NaN. -/
theorem Reads.isFinite_of_div_top (hy : Reads y ⊤) (h : (x / y).isFinite = true) :
    x.isFinite = true := by
  have hquotient := isFinite_pack h
  rw [unpack_of_reads_top hy] at hquotient
  change x.toModel.unpack.isFinite = true
  cases hu : x.toModel.unpack with
  | zero s => rfl
  | finite s m e hm => rfl
  | _ =>
    rw [hu] at hquotient
    exact absurd (show false = true from hquotient) Bool.false_ne_true

/-! ## §4 Numbers that are not negative -/

theorem nearest_zero : nearest 0 = 0 :=
  reads_zero.nearest_eq

theorem nearest_nonneg (hr : 0 ≤ r) : 0 ≤ nearest r :=
  nearest_zero ▸ nearest_mono hr

theorem nonneg_of_reads {a : EReal} (hx : Reads x a) (ha : 0 ≤ a) : 0.0 ≤ x :=
  (reads_zero.le_iff hx).mpr ha

/-- A number that is not negative stands for a real number or for the upper end of the line. -/
theorem nonneg_cases (hx : 0.0 ≤ x) : Reads x ⊤ ∨ ∃ r : ℝ, 0 ≤ r ∧ Reads x r := by
  obtain ⟨a, ha⟩ := exists_reads (isNaN_eq_false_of_le hx).2
  have hnonneg : 0 ≤ a := (reads_zero.le_iff ha).mp hx
  cases a with
  | bot => exact absurd hnonneg (not_le.mpr EReal.bot_lt_zero)
  | top => exact Or.inl ha
  | coe r => exact Or.inr ⟨r, EReal.coe_nonneg.mp hnonneg, ha⟩

theorem nonneg_add (hx : 0.0 ≤ x) (hy : 0.0 ≤ y) : 0.0 ≤ x + y := by
  rcases nonneg_cases hx with hx | ⟨r, hr, hx⟩ <;> rcases nonneg_cases hy with hy | ⟨t, ht, hy⟩
  · exact nonneg_of_reads (hx.top_add_top hy) le_top
  · exact nonneg_of_reads (hx.top_add hy) le_top
  · exact nonneg_of_reads (hx.add_top hy) le_top
  · exact nonneg_of_reads (hx.add hy) (nearest_nonneg (add_nonneg hr ht))

theorem nonneg_div (hx : 0.0 ≤ x) (hy : Reads y t) (ht : 0 < t) : 0.0 ≤ x / y := by
  rcases nonneg_cases hx with hx | ⟨r, hr, hx⟩
  · exact nonneg_of_reads (hx.top_div hy ht) le_top
  · exact nonneg_of_reads (hx.div hy ht.ne') (nearest_nonneg (div_nonneg hr ht.le))

theorem nonneg_mul (hx : 0.0 ≤ x) (hy : Reads y t) (ht : 0 < t) : 0.0 ≤ x * y := by
  rcases nonneg_cases hx with hx | ⟨r, hr, hx⟩
  · exact nonneg_of_reads (hx.top_mul hy ht) le_top
  · exact nonneg_of_reads (hx.mul hy) (nearest_nonneg (mul_nonneg hr ht.le))

theorem nonneg_mul_self (hx : 0.0 ≤ x) : 0.0 ≤ x * x := by
  rcases nonneg_cases hx with hx | ⟨r, hr, hx⟩
  · exact nonneg_of_reads (hx.top_mul_top hx) le_top
  · exact nonneg_of_reads (hx.mul hx) (nearest_nonneg (mul_nonneg hr hr))

/-- A finite quotient of numbers that are not negative is not negative. -/
theorem nonneg_of_isFinite_div (hx : 0.0 ≤ x) (hy : 0.0 ≤ y) (h : (x / y).isFinite = true) :
    0.0 ≤ x / y := by
  rcases nonneg_cases hy with htop | ⟨t, ht, hreads⟩
  · rcases nonneg_cases hx with hx | ⟨r, -, hx⟩
    · obtain ⟨r, hr⟩ := isFinite_iff_exists_reads.mp (htop.isFinite_of_div_top h)
      exact absurd (hr.unique hx) (EReal.coe_ne_top r)
    · exact nonneg_of_reads (hx.div_top htop) le_rfl
  · rcases eq_or_lt_of_le ht with rfl | hpos
    · exact absurd h hreads.not_isFinite_div_zero
    · exact nonneg_div hx hreads hpos

theorem nonneg_sqrt (hx : 0.0 ≤ x) : 0.0 ≤ x.sqrt := by
  rcases nonneg_cases hx with hx | ⟨r, hr, hx⟩
  · exact nonneg_of_reads hx.sqrt_top le_top
  · exact nonneg_of_reads (hx.sqrt hr) (nearest_nonneg (Real.sqrt_nonneg r))

/-- Moving up by a number that is not negative leads nowhere below. -/
theorem le_add_nonneg (hx : Reads x r) (hy : 0.0 ≤ y) : x ≤ x + y := by
  rcases nonneg_cases hy with hy | ⟨t, ht, hy⟩
  · exact (hx.le_iff (hx.add_top hy)).mpr le_top
  · rw [hx.le_iff (hx.add hy), ← hx.nearest_eq]
    exact nearest_mono (le_add_of_nonneg_right ht)

/-- Moving down by a number that is not negative leads nowhere above. -/
theorem sub_nonneg_le (hx : Reads x r) (hy : 0.0 ≤ y) : x - y ≤ x := by
  rcases nonneg_cases hy with hy | ⟨t, ht, hy⟩
  · exact ((hx.sub_top hy).le_iff hx).mpr bot_le
  · rw [(hx.sub hy).le_iff hx, ← hx.nearest_eq]
    exact nearest_mono (sub_le_self r ht)

/-- What lies above zero by the least place or more is not rounded to zero. -/
theorem nearest_pos (hr : 2 ^ (-1074 : ℤ) ≤ r) : 0 < nearest r := by
  have hplace : (0 : ℝ) < 2 ^ (-1074 : ℤ) := two_zpow_pos _
  have hleast : rounded (2 ^ (-1074 : ℤ)) = 2 ^ (-1074 : ℤ) :=
    (Representable.two_zpow le_rfl).rounded_eq
  have hsmall : |rounded (2 ^ (-1074 : ℤ))| < overflow := by
    rw [hleast, abs_of_pos hplace]
    exact two_zpow_lt_overflow (by norm_num)
  apply lt_of_lt_of_le _ (nearest_mono hr)
  rw [nearest_of_abs_lt hsmall, hleast]
  exact EReal.coe_pos.mpr hplace

/-- Underflow is gradual: a difference is above zero if and only if the numbers are in order. -/
theorem Reads.sub_pos_iff (hx : Reads x r) (hy : Reads y t) : 0.0 < x - y ↔ t < r := by
  rw [reads_zero.lt_iff (hx.sub hy)]
  constructor
  · intro hpos
    by_contra hle
    have hnonpos : nearest (r - t) ≤ 0 :=
      nearest_zero ▸ nearest_mono (sub_nonpos.mpr (not_lt.mp hle))
    exact absurd hpos (not_lt.mpr hnonpos)
  · intro hlt
    apply nearest_pos
    exact hx.representable.two_zpow_le_sub hy.representable hlt

/-! ## §5 Whole numbers -/

/-- The integer conversion shifts out what stands behind the point. -/
private theorem roundToInt_positive (m : ℕ) (e : ℤ) :
    roundToInt .positive m e = ⌊(m : ℝ) * 2 ^ e⌋ := by
  set i := (e - 0).toNat with hi
  set j := (0 - (e - i)).toNat with hj
  have hshifted := ((Describes.natCast (m <<< i)).shiftRight j).floor_eq
  have hvalue : ((m <<< i : ℕ) : ℝ) / 2 ^ j = m * 2 ^ e := by
    have hexp : e = (i : ℤ) - j := by omega
    rw [hexp, zpow_sub₀ two_ne_zero, zpow_natCast, zpow_natCast, Nat.shiftLeft_eq]
    push_cast
    ring
  rw [hvalue] at hshifted
  rw [hshifted]
  rfl

/-- The conversion to a word drops the fraction. -/
theorem Reads.toNat_toUInt64 (hx : Reads x r) (hr : 0 ≤ r) (hword : r < 2 ^ 64) :
    x.toUInt64.toNat = ⌊r⌋₊ := by
  have hsmall : ⌊r⌋₊ < UInt64.size := by
    rw [Nat.floor_lt hr]
    exact_mod_cast hword
  have hclamp : (UInt64.ofNatClamp ⌊r⌋₊).toNat = ⌊r⌋₊ := by
    rw [UInt64.ofNatClamp, dif_pos hsmall, UInt64.toNat_ofNatLT]
  have htruncated : x.toModel.unpack.toInt 0 (↑UInt64.size - 1) = ⌊r⌋ := by
    obtain ⟨-, hfinite, hvalue⟩ := hx.unpack
    rcases isFinite_cases hfinite with ⟨s, hw⟩ | ⟨s, m, e, hm, hw⟩
    · rw [hw] at hvalue ⊢
      rw [← hvalue]
      exact Int.floor_zero.symm
    · rw [hw] at hvalue ⊢
      cases s with
      | positive =>
        rw [← hvalue, finiteValue, signFactor, one_mul]
        exact roundToInt_positive m e
      | negative =>
        have hpos : 0 < (m : ℝ) * 2 ^ e := magnitude_pos hm e
        rw [finiteValue, signFactor] at hvalue
        linarith
  change (UInt64.ofNatClamp (x.toModel.unpack.toInt 0 (↑UInt64.size - 1)).toNat).toNat = _
  rw [htruncated, Int.floor_toNat, hclamp]

end OnlineAggregation.Binary64
