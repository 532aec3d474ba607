import OnlineAggregation.Proofs.Binary64.Arithmetic

/-!
# Operations that keep the order

On numbers that are not negative the exact operations keep the order, or a divisor turns it round,
and rounding changes nothing about that. Main statements: products, quotients and roots of such
numbers are in the order of their operands, as far as none of them is NaN; and a quotient that is
finite stays so as the dividend shrinks and the divisor grows, be it to infinity.
-/

namespace OnlineAggregation.Binary64

variable {x x' y y' : Float} {r t : ℝ}

/-! ## §1 Chains -/

theorem trans_le_le {z : Float} (hxy : x ≤ y) (hyz : y ≤ z) : x ≤ z := by
  obtain ⟨a, ha⟩ := exists_reads (isNaN_eq_false_of_le hxy).1
  obtain ⟨b, hb⟩ := exists_reads (isNaN_eq_false_of_le hxy).2
  obtain ⟨c, hc⟩ := exists_reads (isNaN_eq_false_of_le hyz).2
  exact (ha.le_iff hc).mpr (((ha.le_iff hb).mp hxy).trans ((hb.le_iff hc).mp hyz))

theorem trans_lt_le {z : Float} (hxy : x < y) (hyz : y ≤ z) : x < z := by
  obtain ⟨a, ha⟩ := exists_reads (isNaN_eq_false_of_lt hxy).1
  obtain ⟨b, hb⟩ := exists_reads (isNaN_eq_false_of_lt hxy).2
  obtain ⟨c, hc⟩ := exists_reads (isNaN_eq_false_of_le hyz).2
  exact (ha.lt_iff hc).mpr (((ha.lt_iff hb).mp hxy).trans_le ((hb.le_iff hc).mp hyz))

theorem trans_le_lt {z : Float} (hxy : x ≤ y) (hyz : y < z) : x < z := by
  obtain ⟨a, ha⟩ := exists_reads (isNaN_eq_false_of_le hxy).1
  obtain ⟨b, hb⟩ := exists_reads (isNaN_eq_false_of_le hxy).2
  obtain ⟨c, hc⟩ := exists_reads (isNaN_eq_false_of_lt hyz).2
  exact (ha.lt_iff hc).mpr (((ha.le_iff hb).mp hxy).trans_lt ((hb.lt_iff hc).mp hyz))

/-- What is finite and not negative stands for such a real number. -/
theorem exists_reads_nonneg (hx : 0.0 ≤ x) (hfinite : x.isFinite = true) :
    ∃ r : ℝ, 0 ≤ r ∧ Reads x r := by
  obtain ⟨r, hr⟩ := isFinite_iff_exists_reads.mp hfinite
  exact ⟨r, EReal.coe_nonneg.mp ((reads_zero.le_iff hr).mp hx), hr⟩

/-- Below a finite number that stands for `t` there are numbers from zero to `t` only. -/
theorem exists_reads_below (hx : 0.0 ≤ x) (hxy : x ≤ y) (hy : Reads y t) :
    ∃ r : ℝ, 0 ≤ r ∧ r ≤ t ∧ Reads x r :=
  exists_reads_of_mem reads_zero hy hx hxy

/-- Between two numbers rounding stays between them. -/
theorem Reads.exists_of_mem {l u : Float} {a b : ℝ} (hx : Reads x (nearest r)) (hl : Reads l a)
    (hu : Reads u b) (hlow : a ≤ r) (hhigh : r ≤ b) : ∃ t : ℝ, a ≤ t ∧ t ≤ b ∧ Reads x t := by
  apply exists_reads_of_mem hl hu
  · rw [hl.le_iff hx, ← hl.nearest_eq]
    exact nearest_mono hlow
  · rw [hx.le_iff hu, ← hu.nearest_eq]
    exact nearest_mono hhigh

/-! ## §2 Products -/

/-- Finite factors never give NaN. -/
theorem mul_mono (hx : 0.0 ≤ x) (hxx : x ≤ x') (hx' : x'.isFinite = true) (hy : 0.0 ≤ y)
    (hyy : y ≤ y') (hy' : y'.isFinite = true) : x * y ≤ x' * y' := by
  obtain ⟨r', hr'⟩ := isFinite_iff_exists_reads.mp hx'
  obtain ⟨t', ht'⟩ := isFinite_iff_exists_reads.mp hy'
  obtain ⟨r, hr, hrr, hxr⟩ := exists_reads_below hx hxx hr'
  obtain ⟨t, ht, htt, hyt⟩ := exists_reads_below hy hyy ht'
  rw [(hxr.mul hyt).le_iff (hr'.mul ht')]
  exact nearest_mono (mul_le_mul hrr htt ht (hr.trans hrr))

/-- An infinite factor does no harm beside one that is not zero. -/
theorem mul_mono_of_pos (hx : 0.0 ≤ x) (hxx : x ≤ x') (hy : Reads y t) (ht : 0 < t)
    (hyy : y ≤ y') (hy' : y'.isFinite = true) : x * y ≤ x' * y' := by
  obtain ⟨t', ht'⟩ := isFinite_iff_exists_reads.mp hy'
  have htt : t ≤ t' := EReal.coe_le_coe_iff.mp ((hy.le_iff ht').mp hyy)
  rcases nonneg_cases (trans_le_le hx hxx) with htop | ⟨r', -, hr'⟩
  · obtain ⟨a, ha⟩ := exists_reads (isNaN_eq_false_of_le (nonneg_mul hx hy ht)).2
    exact (ha.le_iff (htop.top_mul ht' (ht.trans_le htt))).mpr le_top
  · have hy_nonneg : 0.0 ≤ y := nonneg_of_reads hy (EReal.coe_nonneg.mpr ht.le)
    exact mul_mono hx hxx hr'.isFinite hy_nonneg hyy hy'

/-! ## §3 Quotients -/

/-- A finite quotient stays finite and gets no greater with a smaller dividend and a greater
divisor. -/
theorem div_mem (hx : 0.0 ≤ x) (hxx : x ≤ x') (hy : 0.0 ≤ y) (hyy : y ≤ y')
    (hfinite : (x' / y).isFinite = true) : 0.0 ≤ x / y' ∧ x / y' ≤ x' / y := by
  rcases nonneg_cases hy with htop | ⟨t, ht, hyt⟩
  · -- Both divisors are infinite, and both quotients vanish.
    obtain ⟨r', hr'⟩ := isFinite_iff_exists_reads.mp (htop.isFinite_of_div_top hfinite)
    obtain ⟨r, -, -, hr⟩ := exists_reads_below hx hxx hr'
    obtain ⟨a, ha⟩ := exists_reads (isNaN_eq_false_of_le hyy).2
    obtain rfl : a = ⊤ := top_le_iff.mp ((htop.le_iff ha).mp hyy)
    have hvanishes := hr.div_top ha
    exact ⟨nonneg_of_reads hvanishes le_rfl,
      (hvanishes.le_iff (hr'.div_top htop)).mpr le_rfl⟩
  · have hpos : 0 < t := by
      apply lt_of_le_of_ne ht
      rintro rfl
      exact hyt.not_isFinite_div_zero hfinite
    obtain ⟨r', hr'⟩ := isFinite_iff_exists_reads.mp (isFinite_of_div hfinite hyt.isFinite)
    obtain ⟨r, hr, hrr, hxr⟩ := exists_reads_below hx hxx hr'
    have hquotient := hr'.div hyt hpos.ne'
    rcases nonneg_cases (trans_le_le hy hyy) with htop | ⟨t', -, hyt'⟩
    · have hvanishes := hxr.div_top htop
      refine ⟨nonneg_of_reads hvanishes le_rfl, (hvanishes.le_iff hquotient).mpr ?_⟩
      exact nearest_nonneg (div_nonneg (hr.trans hrr) ht)
    · have htt : t ≤ t' := EReal.coe_le_coe_iff.mp ((hyt.le_iff hyt').mp hyy)
      have hsmaller := hxr.div hyt' (hpos.trans_le htt).ne'
      refine ⟨nonneg_of_reads hsmaller (nearest_nonneg (div_nonneg hr (ht.trans htt))), ?_⟩
      rw [hsmaller.le_iff hquotient]
      exact nearest_mono (div_le_div₀ (hr.trans hrr) hrr hpos htt)

/-- A divisor of at least one makes nothing greater. -/
theorem isFinite_div (hx : Reads x r) (hr : 0 ≤ r) (hy : Reads y t) (ht : 1 ≤ t) :
    (x / y).isFinite = true := by
  have hpos : 0 < t := one_pos.trans_le ht
  rw [(hx.div hy hpos.ne').isFinite_nearest_iff, abs_of_nonneg (rounded_nonneg (div_nonneg hr hpos.le))]
  calc rounded (r / t) ≤ r := rounded_le hx.representable (div_le_self hr ht)
    _ ≤ |r| := le_abs_self r
    _ < overflow := hx.abs_lt_overflow

/-! ## §4 Roots -/

theorem sqrt_mono (hx : 0.0 ≤ x) (hxx : x ≤ x') : x.sqrt ≤ x'.sqrt := by
  rcases nonneg_cases (trans_le_le hx hxx) with htop | ⟨r', -, hr'⟩
  · obtain ⟨a, ha⟩ := exists_reads (isNaN_eq_false_of_le (nonneg_sqrt hx)).2
    exact (ha.le_iff htop.sqrt_top).mpr le_top
  · obtain ⟨r, hr, hrr, hxr⟩ := exists_reads_below hx hxx hr'
    rw [(hxr.sqrt hr).le_iff (hr'.sqrt (hr.trans hrr))]
    exact nearest_mono (Real.sqrt_le_sqrt hrr)

theorem isFinite_sqrt (hx : Reads x r) (hr : 0 ≤ r) : x.sqrt.isFinite = true := by
  have hroot : √r ≤ (2 : ℝ) ^ (512 : ℤ) := by
    rw [Real.sqrt_le_left (two_zpow_pos 512).le]
    calc r ≤ |r| := le_abs_self r
      _ ≤ overflow := hx.abs_lt_overflow.le
      _ = ((2 : ℝ) ^ (512 : ℤ)) ^ 2 := by rw [overflow, ← zpow_natCast, ← zpow_mul]; norm_num
  rw [(hx.sqrt hr).isFinite_nearest_iff, abs_of_nonneg (rounded_nonneg (Real.sqrt_nonneg r))]
  calc rounded √r ≤ 2 ^ (512 : ℤ) := rounded_le (Representable.two_zpow (by norm_num)) hroot
    _ < overflow := two_zpow_lt_overflow (by norm_num)

end OnlineAggregation.Binary64
