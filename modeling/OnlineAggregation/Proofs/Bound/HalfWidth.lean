import OnlineAggregation.Bound.HalfWidth
import OnlineAggregation.Proofs.Binary64.Arithmetic

/-!
# The size of a half-width

A half-width is a width times a factor that depends on the confidence and on the count only. Main
statements: at a valid level and for a count of 64 bits the factor lies between `2 ^ -33` and 8. So
a half-width is never NaN and never negative; it is finite unless the width or the product
overflows; and it never grows with the count, nor shrinks as the width or the logarithm grows.
-/

namespace OnlineAggregation

open Binary64
open Numeric (NaturalLog ln)

/-! ## §1 The argument of the logarithm -/

/-- What is assumed of the logarithm: from 2 to `2 ^ 54` it lies between 0.69 and 37.5. -/
def LogInRange [NaturalLog] : Prop :=
  ∀ x : Float, 2.0 ≤ x → x ≤ 18014398509481984.0 → 0.69 ≤ ln x ∧ ln x ≤ 37.5

/-- A logarithm that is right at 4, the only place where even odds ask for it. -/
@[reducible] def logAtFour : NaturalLog where
  ln _ := Float.ofBits 0x3ff62e42fefa39ef

theorem logInRange_logAtFour : @LogInRange logAtFour :=
  have hbounds : 0.69 ≤ Float.ofBits 0x3ff62e42fefa39ef ∧
      Float.ofBits 0x3ff62e42fefa39ef ≤ 37.5 := by decide
  fun _ _ _ => hbounds

/-- A whole number that is a power of two enters arithmetic as it is. -/
theorem reads_two_zpow {x : Float} {n : ℕ} {k : ℤ} (hx : x = Float.ofNat n)
    (hn : (n : ℝ) = 2 ^ k) (hleast : -1074 ≤ k := by norm_num) (hmost : k < 1024 := by norm_num) :
    Reads x ((2 ^ k : ℝ)) := by
  have hreads := ((reads_ofNat n).of_mem_zpow hn.ge hn.le hleast hmost).2.2
  rwa [hn, (Representable.two_zpow hleast).rounded_eq, ← hx] at hreads

/-- A power of two is read from its exponent. -/
theorem reads_of_unpack {x : Float} {k : ℤ}
    (hx : x.toModel.unpack = .finite .positive (2 ^ 52) (k - 52) (by norm_num)) :
    Reads x ((2 ^ k : ℝ)) := by
  have hfinite : x.toModel.unpack.isFinite = true := by
    rw [hx]
    rfl
  refine ⟨isNaN_of_isFinite hfinite, ?_⟩
  rw [extendedValue_of_isFinite hfinite, hx, finiteValue, signFactor, one_mul, Nat.cast_pow,
    Nat.cast_ofNat, ← zpow_natCast, ← zpow_add₀ two_ne_zero]
  norm_num

theorem reads_literal_two : Reads 2.0 (2 : ℝ) := by
  simpa using reads_two_zpow (x := 2.0) (n := 2) (k := 1) (by decide) (by norm_num)

namespace ConfidenceLevel

theorem exists_reads_value (c : ConfidenceLevel) : ∃ r : ℝ, 0 < r ∧ r < 1 ∧ Reads c.value r := by
  obtain ⟨a, ha⟩ := exists_reads (isNaN_eq_false_of_lt c.positive).2
  have hlow : 0 < a := (reads_zero.lt_iff ha).mp c.positive
  have hhigh : a < (1 : ℝ) := (ha.lt_iff reads_literal_one).mp c.below_one
  cases a with
  | bot => exact absurd hlow (not_lt.mpr bot_le)
  | top => exact absurd hhigh (not_lt.mpr le_top)
  | coe r => exact ⟨r, EReal.coe_pos.mp hlow, EReal.coe_lt_coe_iff.mp hhigh, ha⟩

/-- The tolerated error probability `1 - c` is not rounded down to zero, so twice its reciprocal
stays within `2 ^ 54`. -/
theorem reads_ratio (c : ConfidenceLevel) {r : ℝ} (hr : Reads c.value r) :
    0 < rounded (1 - r) ∧ 2 ≤ rounded (2 / rounded (1 - r)) ∧
      rounded (2 / rounded (1 - r)) ≤ 2 ^ (54 : ℤ) ∧
      Reads (2.0 / (1.0 - c.value)) (rounded (2 / rounded (1 - r)) : ℝ) := by
  obtain ⟨r', hpos, hlt, hr'⟩ := c.exists_reads_value
  obtain rfl : r = r' := EReal.coe_eq_coe_iff.mp (hr.unique hr')
  have hgap := hr.representable.le_of_lt_one hlt
  obtain ⟨hlow, hhigh, hrest⟩ := (reads_literal_one.sub hr).of_mem_zpow (i := -53) (j := 0)
    (by linarith) (by norm_num; linarith)
  have hrest_pos : 0 < rounded (1 - r) := (two_zpow_pos (-53)).trans_le hlow
  have hratio : (2 : ℝ) ^ (1 : ℤ) ≤ 2 / rounded (1 - r) :=
    two_zpow_le_div (zpow_one 2).le hrest_pos hhigh
  have hratio' : 2 / rounded (1 - r) ≤ (2 : ℝ) ^ (54 : ℤ) :=
    div_le_two_zpow (zpow_one 2).ge hlow
  obtain ⟨hlow', hhigh', hread⟩ :=
    (reads_literal_two.div hrest hrest_pos.ne').of_mem_zpow hratio hratio'
  rw [zpow_one] at hlow'
  exact ⟨hrest_pos, hlow', hhigh', hread⟩

/-- So the logarithm is asked for between 2 and `2 ^ 54` only. -/
theorem ratio_mem (c : ConfidenceLevel) :
    2.0 ≤ 2.0 / (1.0 - c.value) ∧ 2.0 / (1.0 - c.value) ≤ 18014398509481984.0 := by
  obtain ⟨r, -, -, hr⟩ := c.exists_reads_value
  obtain ⟨-, hlow, hhigh, hread⟩ := c.reads_ratio hr
  have hlast : Reads 18014398509481984.0 ((2 ^ (54 : ℤ) : ℝ)) :=
    reads_two_zpow (n := 2 ^ 54) (by decide) (by norm_num)
  rw [reads_literal_two.le_iff hread, hread.le_iff hlast, EReal.coe_le_coe_iff, EReal.coe_le_coe_iff]
  exact ⟨hlow, hhigh⟩

/-- A higher confidence has a higher argument. -/
theorem ratio_mono {c c' : ConfidenceLevel} (h : c.value ≤ c'.value) :
    2.0 / (1.0 - c.value) ≤ 2.0 / (1.0 - c'.value) := by
  obtain ⟨r, -, -, hr⟩ := c.exists_reads_value
  obtain ⟨r', -, -, hr'⟩ := c'.exists_reads_value
  obtain ⟨-, -, -, hread⟩ := c.reads_ratio hr
  obtain ⟨hrest_pos, -, -, hread'⟩ := c'.reads_ratio hr'
  have hle : r ≤ r' := EReal.coe_le_coe_iff.mp ((hr.le_iff hr').mp h)
  -- What is left to 1 shrinks, and dividing by it turns the order round.
  have hrest : rounded (1 - r') ≤ rounded (1 - r) := rounded_mono (by linarith)
  rw [hread.le_iff hread', EReal.coe_le_coe_iff]
  exact rounded_mono (div_le_div_of_nonneg_left two_pos.le hrest_pos hrest)

variable [NaturalLog]

/-- The logarithm of a valid level is a number that is neither small nor large. -/
theorem exists_reads_logTerm (c : ConfidenceLevel) (hlog : LogInRange) :
    ∃ l : ℝ, 1 / 2 ≤ l ∧ l ≤ 64 ∧ Reads c.logTerm l := by
  obtain ⟨hlow, hhigh⟩ := hlog _ c.ratio_mem.1 c.ratio_mem.2
  obtain ⟨a, ha⟩ := isFinite_iff_exists_reads.mp (show (0.69 : Float).isFinite by decide)
  obtain ⟨b, hb⟩ := isFinite_iff_exists_reads.mp (show (37.5 : Float).isFinite by decide)
  obtain ⟨l, hal, hlb, hl⟩ := exists_reads_of_mem ha hb hlow hhigh
  -- The two constants are compared with numbers whose values are known.
  have hhalf : Reads (1.0 / 2.0) (rounded (1 / 2) : ℝ) :=
    ((reads_literal_one.div reads_literal_two two_ne_zero).of_mem_zpow (i := -1) (j := -1) (by norm_num)
      (by norm_num)).2.2
  have hhalf' : rounded (1 / 2) = 1 / 2 := by
    simpa using (Representable.two_zpow (k := -1) (by norm_num)).rounded_eq
  have hlarge : Reads 64.0 ((2 ^ (6 : ℤ) : ℝ)) :=
    reads_two_zpow (n := 64) (by decide) (by norm_num)
  have ha' : 1 / 2 ≤ a := by
    rw [← hhalf', ← EReal.coe_le_coe_iff, ← hhalf.le_iff ha]
    decide
  have hb' : b ≤ 2 ^ (6 : ℤ) := by
    rw [← EReal.coe_le_coe_iff, ← hb.le_iff hlarge]
    decide
  exact ⟨l, ha'.trans hal, (hlb.trans hb').trans (by norm_num), hl⟩

/-! ## §2 The factor -/

/-- What a width is multiplied by. -/
def factor (c : ConfidenceLevel) (n : ℕ) : Float :=
  Float.sqrt (c.logTerm / (2.0 * Float.ofNat n))

omit [NaturalLog] in
/-- The factor for a logarithm of `l`, each step rounded on the real line. -/
noncomputable def factorValue (l : ℝ) (n : ℕ) : ℝ :=
  rounded √(rounded (l / rounded ((2 : ℕ) * rounded n)))

omit [NaturalLog] in
theorem factorValue_eq (l : ℝ) (n : ℕ) :
    factorValue l n = rounded √(rounded (l / rounded (2 * rounded n))) := by
  rw [factorValue, Nat.cast_ofNat]

section Divisor

variable {l : ℝ} {n : ℕ}

omit [NaturalLog]

/-- Twice the count, before the product is rounded. -/
theorem two_zpow_le_twice (hn : 1 ≤ n) : (2 : ℝ) ^ (1 : ℤ) ≤ 2 * rounded n := by
  have hcount : (2 : ℝ) ^ (0 : ℤ) ≤ rounded n :=
    le_rounded (Representable.two_zpow (by norm_num)) (by rw [zpow_zero]; exact_mod_cast hn)
  exact two_zpow_le_mul (zpow_one 2).le hcount

theorem twice_le_two_zpow (hword : n < 2 ^ 64) : 2 * rounded n ≤ (2 : ℝ) ^ (65 : ℤ) := by
  have hcount : rounded n ≤ (2 : ℝ) ^ (64 : ℤ) :=
    rounded_le (Representable.two_zpow (by norm_num)) (by exact_mod_cast hword.le)
  exact mul_le_two_zpow (zpow_one 2).ge (rounded_nonneg (Nat.cast_nonneg n)) hcount

theorem two_zpow_le_divisor (hn : 1 ≤ n) : (2 : ℝ) ^ (1 : ℤ) ≤ rounded (2 * rounded n) :=
  le_rounded (Representable.two_zpow (by norm_num)) (two_zpow_le_twice hn)

theorem divisor_pos (hn : 1 ≤ n) : 0 < rounded (2 * rounded n) :=
  (two_zpow_pos 1).trans_le (two_zpow_le_divisor hn)

/-- Twice a count of 64 bits does not overflow. -/
theorem reads_divisor (hn : 1 ≤ n) (hword : n < 2 ^ 64) :
    Reads (2.0 * Float.ofNat n) (rounded (2 * rounded n) : ℝ) := by
  obtain ⟨-, -, hcount⟩ := (reads_ofNat n).of_mem_zpow (i := 0) (j := 64)
    (by rw [zpow_zero]; exact_mod_cast hn) (by exact_mod_cast hword.le)
  exact ((reads_literal_two.mul hcount).of_mem_zpow (two_zpow_le_twice hn)
    (twice_le_two_zpow hword)).2.2

theorem two_zpow_le_quotient (hlow : 1 / 2 ≤ l) (hn : 1 ≤ n) (hword : n < 2 ^ 64) :
    (2 : ℝ) ^ (-66 : ℤ) ≤ l / rounded (2 * rounded n) := by
  have hdivisor : rounded (2 * rounded n) ≤ (2 : ℝ) ^ (65 : ℤ) :=
    rounded_le (Representable.two_zpow (by norm_num)) (twice_le_two_zpow hword)
  exact two_zpow_le_div (i := -1) (by norm_num; linarith) (divisor_pos hn) hdivisor

theorem two_zpow_le_root {x : ℝ} (h : 2 ^ (-66 : ℤ) ≤ x) : (2 : ℝ) ^ (-33 : ℤ) ≤ √x := by
  apply Real.le_sqrt_of_sq_le
  calc ((2 : ℝ) ^ (-33 : ℤ)) ^ 2 = 2 ^ (-66 : ℤ) := by norm_num
    _ ≤ x := h

end Divisor

/-- For a count of 64 bits no step on the way to the factor overflows or is rounded to zero. -/
theorem reads_factor {c : ConfidenceLevel} {l : ℝ} (hl : Reads c.logTerm l) (hlow : 1 / 2 ≤ l)
    (hhigh : l ≤ 64) {n : ℕ} (hn : 1 ≤ n) (hword : n < 2 ^ 64) :
    2 ^ (-33 : ℤ) ≤ factorValue l n ∧ factorValue l n ≤ 2 ^ (3 : ℤ) ∧
      Reads (c.factor n) (factorValue l n : ℝ) := by
  have hratio : l / rounded (2 * rounded n) ≤ (2 : ℝ) ^ (6 : ℤ) :=
    (div_le_two_zpow (i := 6) (by norm_num; linarith) (two_zpow_le_divisor hn)).trans
      (zpow_le_zpow_right₀ one_le_two (by norm_num : (5 : ℤ) ≤ 6))
  obtain ⟨hquotient, hquotient', hreads⟩ :=
    (hl.div (reads_divisor hn hword) (divisor_pos hn).ne').of_mem_zpow
      (two_zpow_le_quotient hlow hn hword) hratio
  have hroot : √(rounded (l / rounded (2 * rounded n))) ≤ (2 : ℝ) ^ (3 : ℤ) := by
    rw [Real.sqrt_le_left (two_zpow_pos 3).le]
    calc _ ≤ (2 : ℝ) ^ (6 : ℤ) := hquotient'
      _ = (2 ^ (3 : ℤ)) ^ 2 := by norm_num
  rw [factorValue_eq]
  exact (hreads.sqrt ((two_zpow_pos (-66)).le.trans hquotient)).of_mem_zpow
    (two_zpow_le_root hquotient) hroot

omit [NaturalLog] in
/-- The factor grows with the logarithm, and never with the count. -/
theorem factorValue_mono {l l' : ℝ} {n n' : ℕ} (hl : 0 ≤ l) (hll : l ≤ l') (hn : 1 ≤ n')
    (hnn : n' ≤ n) : factorValue l n ≤ factorValue l' n' := by
  have hgrowth : rounded (2 * rounded n') ≤ rounded (2 * rounded n) :=
    rounded_mono (mul_le_mul_of_nonneg_left (rounded_mono (Nat.cast_le.mpr hnn)) two_pos.le)
  rw [factorValue_eq, factorValue_eq]
  exact rounded_mono (Real.sqrt_le_sqrt (rounded_mono
    (div_le_div₀ (hl.trans hll) hll (divisor_pos hn) hgrowth)))

/-! ## §3 The half-width -/

section HalfWidth

variable {c : ConfidenceLevel} {n : ℕ} {w : Float}

/-- Over a width that overflows every half-width does. -/
theorem reads_hoeffding_top {q : ℝ} (hw : Reads w ⊤) (hq : Reads (c.factor n) q) (hpos : 0 < q) :
    Reads (c.hoeffding n w) ⊤ :=
  hw.top_mul hq hpos

theorem reads_hoeffding {r q : ℝ} (hw : Reads w r) (hq : Reads (c.factor n) q) :
    Reads (c.hoeffding n w) (nearest (r * q)) :=
  hw.mul hq

theorem exists_reads_factor (hlog : LogInRange) (c : ConfidenceLevel) (hn : 1 ≤ n)
    (hword : n < 2 ^ 64) :
    ∃ q : ℝ, 0 < q ∧ q ≤ 2 ^ (3 : ℤ) ∧ Reads (c.factor n) q := by
  obtain ⟨l, hlow, hhigh, hl⟩ := c.exists_reads_logTerm hlog
  obtain ⟨hq, hq', hreads⟩ := reads_factor hl hlow hhigh hn hword
  exact ⟨_, (two_zpow_pos _).trans_le hq, hq', hreads⟩

/-- A half-width over a width that is not negative is not negative, and so it is not NaN. -/
theorem hoeffding_nonneg (hlog : LogInRange) (c : ConfidenceLevel) (hn : 1 ≤ n)
    (hword : n < 2 ^ 64) (hw : 0.0 ≤ w) : 0.0 ≤ c.hoeffding n w := by
  obtain ⟨q, hpos, -, hq⟩ := exists_reads_factor hlog c hn hword
  rcases nonneg_cases hw with hw | ⟨r, hr, hw⟩
  · exact nonneg_of_reads (reads_hoeffding_top hw hq hpos) le_top
  · exact nonneg_of_reads (reads_hoeffding hw hq) (nearest_nonneg (mul_nonneg hr hpos.le))

/-- Over a finite width the product with the factor decides. -/
theorem isFinite_hoeffding_iff {r q : ℝ} (hr : 0 ≤ r) (hw : Reads w r)
    (hq : Reads (c.factor n) q) (hpos : 0 < q) :
    (c.hoeffding n w).isFinite = true ↔ rounded (r * q) < overflow := by
  have hnonneg : 0 ≤ rounded (r * q) := rounded_nonneg (mul_nonneg hr hpos.le)
  rw [(reads_hoeffding hw hq).isFinite_nearest_iff, abs_of_nonneg hnonneg]

/-- A half-width grows with the logarithm and with the width, and never with the count. -/
theorem hoeffding_mono (hlog : LogInRange) {c c' : ConfidenceLevel} {n n' : ℕ} {w w' : Float}
    (hc : c.logTerm ≤ c'.logTerm) (hn : 1 ≤ n') (hnn : n' ≤ n) (hword : n < 2 ^ 64)
    (hw : 0.0 ≤ w) (hww : w ≤ w') : c.hoeffding n w ≤ c'.hoeffding n' w' := by
  obtain ⟨l, hlow, hhigh, hl⟩ := c.exists_reads_logTerm hlog
  obtain ⟨l', hlow', hhigh', hl'⟩ := c'.exists_reads_logTerm hlog
  obtain ⟨hq, -, hfactor⟩ := reads_factor hl hlow hhigh (hn.trans hnn) hword
  obtain ⟨hq', -, hfactor'⟩ := reads_factor hl' hlow' hhigh' hn (hnn.trans_lt hword)
  have hpos : 0 < factorValue l n := (two_zpow_pos _).trans_le hq
  have hpos' : 0 < factorValue l' n' := (two_zpow_pos _).trans_le hq'
  have hle : factorValue l n ≤ factorValue l' n' := by
    refine factorValue_mono (by linarith) ?_ hn hnn
    exact EReal.coe_le_coe_iff.mp ((hl.le_iff hl').mp hc)
  obtain ⟨a, hread'⟩ := exists_reads (isNaN_eq_false_of_le hww).2
  rcases nonneg_cases hw with hread | ⟨r, hr, hread⟩
  · -- Above an infinite width there is only an infinite one.
    obtain rfl : a = ⊤ := top_le_iff.mp ((hread.le_iff hread').mp hww)
    have htop := reads_hoeffding_top hread' hfactor' hpos'
    exact ((reads_hoeffding_top hread hfactor hpos).le_iff htop).mpr le_rfl
  · have hra : (r : EReal) ≤ a := (hread.le_iff hread').mp hww
    cases a with
    | bot => exact absurd hra (not_le.mpr (EReal.bot_lt_coe r))
    | top => exact ((reads_hoeffding hread hfactor).le_iff
        (reads_hoeffding_top hread' hfactor' hpos')).mpr le_top
    | coe r' =>
      rw [(reads_hoeffding hread hfactor).le_iff (reads_hoeffding hread' hfactor')]
      have hrr : r ≤ r' := EReal.coe_le_coe_iff.mp hra
      exact nearest_mono (mul_le_mul hrr hle hpos.le (hr.trans hrr))

/-- More values from a range have no greater half-width at the same level. -/
theorem hoeffding_antitone (hlog : LogInRange) (c : ConfidenceLevel) {n' : ℕ} (hn : 1 ≤ n')
    (hnn : n' ≤ n) (hword : n < 2 ^ 64) (hw : 0.0 ≤ w) : c.hoeffding n w ≤ c.hoeffding n' w := by
  obtain ⟨l, -, -, hl⟩ := c.exists_reads_logTerm hlog
  obtain ⟨a, ha⟩ := exists_reads (isNaN_eq_false_of_le hw).2
  exact hoeffding_mono hlog hl.le_self hn hnn hword hw ha.le_self

end HalfWidth

end ConfidenceLevel

end OnlineAggregation
