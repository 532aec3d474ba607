import OnlineAggregation.Proofs.Binary64.Packing
import OnlineAggregation.Proofs.Binary64.Rounding

/-!
# Mantissas with two further bits

Arithmetic keeps an exact result as a mantissa and two bits, which tell where the rest lies with
respect to one half. Main statement: shifting such a mantissa to its last place and choosing the
even neighbour on a tie is rounding on the real line.
-/

namespace OnlineAggregation.Binary64

open Float.Model Float.Model.UnpackedFloat

/-! ## §1 What the two bits say -/

/-- The mantissa is the whole part of `y`, and the two bits place the rest with respect to one
half. -/
structure Describes (em : ExtendedMantissa) (y : ℝ) : Prop where
  floor_eq : ⌊y⌋ = (em.mantissa : ℤ)
  round_iff : em.roundBit = true ↔ 1 / 2 ≤ Int.fract y
  sticky_iff : em.stickyBit = true ↔ Int.fract y ≠ 0 ∧ Int.fract y ≠ 1 / 2

namespace Describes

variable {em : ExtendedMantissa} {y : ℝ}

/-- Nothing is left beside the mantissa. -/
theorem exact {m : ℕ} (hfloor : ⌊y⌋ = (m : ℤ)) (hnone : Int.fract y = 0) :
    Describes (.ofMantissaAndAccuracy m .exact) y where
  floor_eq := hfloor
  round_iff := by norm_num [ExtendedMantissa.ofMantissaAndAccuracy, hnone]
  sticky_iff := by norm_num [ExtendedMantissa.ofMantissaAndAccuracy, hnone]

/-- Something is left, and its order with one half is known. -/
theorem inexact {m : ℕ} {o : Ordering} (hfloor : ⌊y⌋ = (m : ℤ)) (hsome : Int.fract y ≠ 0)
    (hlt : o = .lt ↔ Int.fract y < 1 / 2) (heq : o = .eq ↔ Int.fract y = 1 / 2) :
    Describes (.ofMantissaAndAccuracy m (.inexact o)) y := by
  refine ⟨?_, ?_, ?_⟩
  · cases o <;> exact hfloor
  · rw [← not_lt, ← hlt]
    cases o <;> simp [ExtendedMantissa.ofMantissaAndAccuracy]
  · rw [ne_eq, ne_eq, ← heq]
    cases o <;> simp [ExtendedMantissa.ofMantissaAndAccuracy, hsome]

theorem natCast (m : ℕ) : Describes (.ofMantissaAndAccuracy m .exact) m :=
  exact (Int.floor_natCast m) (Int.fract_natCast m)

/-- The mantissa and the rest make up the number. -/
theorem eq_add_fract (h : Describes em y) : y = em.mantissa + Int.fract y := by
  have hsplit := Int.floor_add_fract y
  rw [h.floor_eq] at hsplit
  exact_mod_cast hsplit.symm

/-- The two bits suffice to round to the nearest integer. -/
theorem roundedMantissa_eq (h : Describes em y) : (em.roundedMantissa : ℤ) = nearestEven y := by
  obtain ⟨hfloor, hround, hsticky⟩ := h
  rcases em with ⟨m, r, s⟩
  unfold nearestEven
  rw [hfloor]
  cases r <;> cases s <;>
    simp only [ExtendedMantissa.roundedMantissa, ExtendedMantissa.accuracy,
      Accuracy.roundToNearestEven, Bool.false_eq_true, false_iff, true_iff, not_le] at hround hsticky ⊢
  case false.false => rw [if_pos hround]
  case false.true => rw [if_pos hround]
  case true.false =>
    -- The only tie: the first bit says at least half, the second that nothing lies beyond.
    have hhalf : Int.fract y = 1 / 2 := by
      by_contra hne
      refine hsticky ⟨?_, hne⟩
      intro hzero
      rw [hzero] at hround
      norm_num at hround
    rw [if_neg (by rw [hhalf]; norm_num), if_neg (by rw [hhalf]; norm_num)]
    push_cast
    rfl
  case true.true =>
    rw [if_neg (not_lt.mpr hround), if_pos (lt_of_le_of_ne hround (Ne.symm hsticky.2))]
    push_cast
    rfl

/-- Dropping a bit halves the number. -/
theorem shiftRightOne (h : Describes em y) : Describes em.shiftRightOne (y / 2) := by
  have hsplit := h.eq_add_fract
  obtain ⟨hfloor, hround, hsticky⟩ := h
  have hlow := Int.fract_nonneg y
  have hhigh := Int.fract_lt_one y
  have hparity : ((em.mantissa : ℕ) : ℝ) = 2 * (em.mantissa / 2 : ℕ) + (em.mantissa % 2 : ℕ) := by
    exact_mod_cast (Nat.div_add_mod em.mantissa 2).symm
  have hbit : ((em.mantissa % 2 : ℕ) : ℝ) = 0 ∨ ((em.mantissa % 2 : ℕ) : ℝ) = 1 := by
    rcases Nat.mod_two_eq_zero_or_one em.mantissa with hpar | hpar <;> simp [hpar]
  -- The bit that is dropped becomes the first half of the new rest.
  have hfloor' : ⌊y / 2⌋ = ((em.mantissa / 2 : ℕ) : ℤ) := by
    rw [Int.floor_eq_iff]
    rcases hbit with hbit | hbit <;>
    · rw [hbit] at hparity
      rw [Int.cast_natCast]
      constructor <;> linarith
  have hfract : Int.fract (y / 2) = ((em.mantissa % 2 : ℕ) + Int.fract y) / 2 := by
    rw [Int.fract, hfloor', Int.cast_natCast]
    linarith
  refine ⟨hfloor', ?_, ?_⟩
  · rw [hfract]
    rcases Nat.mod_two_eq_zero_or_one em.mantissa with hpar | hpar
    · simp only [ExtendedMantissa.shiftRightOne, hpar]
      norm_num
      linarith
    · simp only [ExtendedMantissa.shiftRightOne, hpar]
      norm_num
      linarith
  · -- Either bit is set exactly if there was a rest at all.
    have hrest : (em.roundBit || em.stickyBit) = true ↔ Int.fract y ≠ 0 := by
      rw [Bool.or_eq_true, hround, hsticky]
      constructor
      · rintro (hge | ⟨hne, -⟩)
        · intro hzero
          rw [hzero] at hge
          norm_num at hge
        · exact hne
      · intro hne
        by_cases hhalf : Int.fract y = 1 / 2
        · exact Or.inl hhalf.ge
        · exact Or.inr ⟨hne, hhalf⟩
    rw [hfract]
    apply hrest.trans
    rcases hbit with hbit | hbit <;> rw [hbit]
    · constructor
      · intro hne
        exact ⟨fun h => hne (by linarith), fun h => by linarith⟩
      · rintro ⟨hne, -⟩ hzero
        exact hne (by rw [hzero]; norm_num)
    · constructor
      · intro hne
        exact ⟨fun h => by linarith, fun h => hne (by linarith)⟩
      · rintro ⟨-, hne⟩ hzero
        exact hne (by rw [hzero]; norm_num)

/-- Dropping `k` bits divides the number by `2 ^ k`. -/
theorem shiftRight (h : Describes em y) (k : ℕ) : Describes (em >>> k) (y / 2 ^ k) := by
  change Describes (k.repeat ExtendedMantissa.shiftRightOne em) (y / 2 ^ k)
  induction k with
  | zero => simpa [Nat.repeat] using h
  | succ k ih =>
    rw [pow_succ, ← div_div]
    exact ih.shiftRightOne

end Describes

/-! ## §2 Readings of rounded numbers -/

/-- The reading stands for `x` rounded, with no limit to the exponent. -/
structure Rounds (u : UnpackedFloat) (x : ℝ) : Prop where
  canonical : Canonical u
  finite : u.isFinite = true
  value : finiteValue u = rounded x

@[simp] theorem signFactor_mul (s t : Sign) : signFactor (s * t) = signFactor s * signFactor t := by
  cases s <;> cases t
  · exact (by norm_num : (1 : ℝ) = -1 * -1)
  · exact (by norm_num : (-1 : ℝ) = -1 * 1)
  · exact (by norm_num : (-1 : ℝ) = 1 * -1)
  · exact (by norm_num : (1 : ℝ) = 1 * 1)

@[simp] theorem signFactor_div (s t : Sign) : signFactor (s / t) = signFactor s / signFactor t := by
  cases s <;> cases t
  · exact (by norm_num : (1 : ℝ) = -1 / -1)
  · exact (by norm_num : (-1 : ℝ) = -1 / 1)
  · exact (by norm_num : (-1 : ℝ) = 1 / -1)
  · exact (by norm_num : (1 : ℝ) = 1 / 1)

@[simp] theorem signFactor_neg (s : Sign) : signFactor (-s) = -signFactor s := by
  cases s
  · exact (by norm_num : (1 : ℝ) = - -1)
  · exact (by norm_num : (-1 : ℝ) = -1)

theorem rounded_signFactor_mul (s : Sign) (x : ℝ) :
    rounded (signFactor s * x) = signFactor s * rounded x := by
  cases s <;> simp [signFactor]

/-! ## §3 Rounding a mantissa -/

theorem targetExponent_eq (t : ℤ) : Format.binary64.targetExponent t = max (t - 53) (-1074) :=
  rfl

private theorem lastPlace_of_describes {em : ExtendedMantissa} {y : ℝ} {e : ℤ}
    (h : Describes em y) (hy : 0 < y)
    (he : e ≤ Format.binary64.targetExponent (totalExponent em.mantissa e)) :
    lastPlace (y * 2 ^ e) = Format.binary64.targetExponent (totalExponent em.mantissa e) := by
  have hpow := two_zpow_pos e
  have hpos : 0 < y * 2 ^ e := mul_pos hy hpow
  have hlow := Int.floor_le y
  have hhigh := Int.lt_floor_add_one y
  rw [h.floor_eq, Int.cast_natCast] at hlow hhigh
  rw [targetExponent_eq] at he ⊢
  unfold totalExponent at he ⊢
  rcases Nat.eq_zero_or_pos em.mantissa with hm | hm
  · -- Less than one unit of `e`, so the exponent is at its lower end.
    rw [hm, Nat.log2_zero] at he ⊢
    rw [hm, Nat.cast_zero, zero_add] at hhigh
    refine lastPlace_eq (le_max_right _ _) ?_ (Or.inr ⟨by omega, hpos.ne'⟩)
    rw [abs_of_pos hpos]
    calc y * 2 ^ e < 1 * 2 ^ e := mul_lt_mul_of_pos_right hhigh hpow
      _ = 2 ^ e := one_mul _
      _ ≤ _ := zpow_le_zpow_right₀ one_le_two (by omega)
  · have hlog : (2 : ℝ) ^ (em.mantissa.log2 : ℤ) ≤ em.mantissa := by
      rw [zpow_natCast]
      exact_mod_cast Nat.log2_self_le hm.ne'
    have hlog' : (em.mantissa : ℝ) + 1 ≤ 2 ^ (em.mantissa.log2 + 1 : ℤ) := by
      have hnat := Nat.succ_le_of_lt (Nat.lt_log2_self (n := em.mantissa))
      exact_mod_cast hnat
    apply lastPlace_eq (le_max_right _ _)
    · rw [abs_of_pos hpos]
      calc y * 2 ^ e < 2 ^ (em.mantissa.log2 + 1 : ℤ) * 2 ^ e :=
            mul_lt_mul_of_pos_right (hhigh.trans_le hlog') hpow
        _ = 2 ^ (em.mantissa.log2 + 1 + e) := (zpow_add₀ two_ne_zero _ _).symm
        _ ≤ _ := zpow_le_zpow_right₀ one_le_two (by omega)
    · by_cases hleast : (em.mantissa.log2 : ℤ) + 1 + e - 53 ≤ -1074
      · exact Or.inr ⟨by omega, hpos.ne'⟩
      · left
        rw [abs_of_pos hpos]
        calc (2 : ℝ) ^ (max ((em.mantissa.log2 : ℤ) + 1 + e - 53) (-1074) + 52)
            ≤ 2 ^ ((em.mantissa.log2 : ℤ) + e) := zpow_le_zpow_right₀ one_le_two (by omega)
          _ = 2 ^ (em.mantissa.log2 : ℤ) * 2 ^ e := zpow_add₀ two_ne_zero _ _
          _ ≤ y * 2 ^ e := mul_le_mul_of_nonneg_right (hlog.trans hlow) hpow.le

private theorem shiftToTargetExponent_of_lt {r : ℕ} {t : ℤ} (hr : r < 2 ^ 53) (ht : -1074 ≤ t) :
    shiftToTargetExponent Format.binary64 r t .exact = (⟨r, false, false⟩, t) := by
  have hlog : r.log2 < 53 := by
    rcases Nat.eq_zero_or_pos r with rfl | hpos
    · simp
    · exact (Nat.log2_lt hpos.ne').mpr hr
  have hshift : (Format.binary64.targetExponent (totalExponent r t) - t).toNat = 0 := by
    rw [targetExponent_eq, totalExponent]
    omega
  rw [shiftToTargetExponent, shiftToExponent, hshift]
  simp [ExtendedMantissa.ofMantissaAndAccuracy, HShiftRight.hShiftRight, Nat.repeat]

private theorem shiftToTargetExponent_two_pow {t : ℤ} (ht : -1074 ≤ t) :
    shiftToTargetExponent Format.binary64 (2 ^ 53) t .exact = (⟨2 ^ 52, false, false⟩, t + 1) := by
  have hshift : (Format.binary64.targetExponent (totalExponent (2 ^ 53) t) - t).toNat = 1 := by
    rw [targetExponent_eq, totalExponent, Nat.log2_two_pow]
    omega
  rw [shiftToTargetExponent, shiftToExponent, hshift]
  rfl

/-- The reading of a mantissa that was chosen, which may have grown to `2 ^ 53`. -/
private def carried (s : Sign) (r : ℕ) (t : ℤ) : UnpackedFloat :=
  let (em, e) := shiftToTargetExponent Format.binary64 r t .exact
  if h : em.mantissa = 0 then .zero s else .finite s em.mantissa e (Nat.pos_of_ne_zero h)

private theorem carried_spec (s : Sign) {r : ℕ} {t : ℤ} (hr : r ≤ 2 ^ 53) (ht : -1074 ≤ t)
    (hlow : 2 ^ 52 ≤ r ∨ t = -1074) :
    Canonical (carried s r t) ∧ (carried s r t).isFinite = true ∧
      finiteValue (carried s r t) = signFactor s * (r * 2 ^ t) := by
  unfold carried
  -- A mantissa of 53 bits stays as it is; `2 ^ 53` loses a bit, which is zero.
  rcases lt_or_eq_of_le hr with hlt | rfl
  · rw [shiftToTargetExponent_of_lt hlt ht]
    by_cases hzero : r = 0
    · simp [hzero, Canonical, finiteValue, UnpackedFloat.isFinite]
    · simp only [hzero, dite_false]
      exact ⟨⟨hlt, ht, hlow⟩, rfl, rfl⟩
  · rw [shiftToTargetExponent_two_pow ht]
    refine ⟨⟨by norm_num, by omega, Or.inl le_rfl⟩, rfl, ?_⟩
    change signFactor s * (((2 ^ 52 : ℕ) : ℝ) * 2 ^ (t + 1)) = _
    rw [zpow_add_one₀ two_ne_zero]
    push_cast
    ring

/-- **Rounding a mantissa**: if the mantissa and its accuracy describe `y` and no bit of `y` above
the last place is missing, the model rounds `y * 2 ^ e` as the real line does. -/
theorem rounds_roundWithAccuracy (s : Sign) {m : ℕ} {e : ℤ} {acc : Accuracy} {y : ℝ}
    (h : Describes (.ofMantissaAndAccuracy m acc) y) (hy : 0 < y)
    (he : e ≤ Format.binary64.targetExponent (totalExponent m e)) :
    Rounds (roundWithAccuracy Format.binary64 s m e acc) (signFactor s * (y * 2 ^ e)) := by
  have hmantissa : (ExtendedMantissa.ofMantissaAndAccuracy m acc).mantissa = m := by
    rcases acc with _ | (_ | _ | _) <;> rfl
  have hpos : 0 < y * 2 ^ e := mul_pos hy (two_zpow_pos e)
  have hplace : lastPlace (y * 2 ^ e) = Format.binary64.targetExponent (totalExponent m e) := by
    have hplace := @lastPlace_of_describes _ _ e h hy
    rw [hmantissa] at hplace
    exact hplace he
  obtain ⟨k, hk⟩ := Int.eq_ofNat_of_zero_le (sub_nonneg.mpr he)
  set t := Format.binary64.targetExponent (totalExponent m e) with ht
  have hleast : -1074 ≤ t := le_max_right _ _
  -- Shifted to the last place, the mantissa describes the quotient that rounding looks at.
  have hquotient : y * 2 ^ e / 2 ^ lastPlace (y * 2 ^ e) = y / 2 ^ k := by
    have hexp : t = e + (k : ℤ) := by omega
    rw [hplace, hexp, zpow_add₀ two_ne_zero, zpow_natCast, mul_div_mul_comm]
    field_simp
  have hshifted := (h.shiftRight k).roundedMantissa_eq
  rw [← hquotient] at hshifted
  set r := (ExtendedMantissa.ofMantissaAndAccuracy m acc >>> k).roundedMantissa with hr
  -- Rounding can carry into a further bit; the model then shifts a second time.
  have hcarried : roundWithAccuracy Format.binary64 s m e acc = carried s r t := by
    have hcount : (t - e).toNat = k := by omega
    have hexp : e + ((t - e).toNat : ℤ) = t := by omega
    change carried s (ExtendedMantissa.ofMantissaAndAccuracy m acc >>> (t - e).toNat).roundedMantissa
      (e + ((t - e).toNat : ℤ)) = _
    rw [hexp, hcount]
  have hhigh := abs_nearestEven_le (y * 2 ^ e)
  rw [← hshifted, Nat.abs_cast] at hhigh
  have hlow : 2 ^ 52 ≤ r ∨ t = -1074 := by
    by_cases hedge : t = -1074
    · exact Or.inr hedge
    · have hlead := le_abs_nearestEven hpos.ne' (by rwa [hplace])
      rw [← hshifted, Nat.abs_cast] at hlead
      exact Or.inl (by exact_mod_cast hlead)
  obtain ⟨hcanonical, hfinite, hvalue⟩ := carried_spec s (by exact_mod_cast hhigh) hleast hlow
  rw [hcarried]
  refine ⟨hcanonical, hfinite, ?_⟩
  rw [hvalue, rounded_signFactor_mul, rounded, ← hshifted, hplace, Int.cast_natCast]

end OnlineAggregation.Binary64
