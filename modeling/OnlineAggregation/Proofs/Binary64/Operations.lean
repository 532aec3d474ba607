import OnlineAggregation.Proofs.Binary64.Mantissa

/-!
# Arithmetic on readings

Each operation on finite readings gives the exact result rounded once: sum, difference, product,
quotient, square root and the conversion of natural numbers.
-/

namespace OnlineAggregation.Binary64

open Float.Model Float.Model.UnpackedFloat

/-! ## §1 Readings as they are -/

theorem Rounds.of_eq {u : UnpackedFloat} {x y : ℝ} (h : Rounds u x) (hxy : x = y) : Rounds u y :=
  hxy ▸ h

/-- What a canonical reading stands for is representable. -/
theorem representable_finiteValue {u : UnpackedFloat} (hu : Canonical u) :
    Representable (finiteValue u) := by
  cases u with
  | finite s m e hm =>
    obtain ⟨hhigh, hleast, -⟩ := hu
    have hpositive : Representable (m * 2 ^ e) :=
      ⟨m, e, by rw [Nat.abs_cast]; exact_mod_cast hhigh, hleast, by simp⟩
    cases s with
    | negative => simpa [finiteValue, signFactor] using hpositive.neg
    | positive => simpa [finiteValue, signFactor] using hpositive
  | _ => exact Representable.zero

/-- A canonical reading stands for its own number rounded. -/
theorem rounds_self {u : UnpackedFloat} (hu : Canonical u) (hfinite : u.isFinite = true) :
    Rounds u (finiteValue u) :=
  ⟨hu, hfinite, (representable_finiteValue hu).rounded_eq.symm⟩

theorem rounds_zero (s : Sign) : Rounds (.zero s) 0 :=
  ⟨trivial, rfl, rounded_zero.symm⟩

private theorem shiftLeft_value (m k : ℕ) (e : ℤ) :
    ((m <<< k : ℕ) : ℝ) * 2 ^ (e - k) = m * 2 ^ e := by
  rw [Nat.shiftLeft_eq, zpow_sub₀ two_ne_zero, zpow_natCast]
  push_cast
  field_simp

private theorem aligned_value {m : ℕ} {e t : ℤ} (ht : t ≤ e) :
    ((m <<< (e - t).toNat : ℕ) : ℝ) * 2 ^ t = m * 2 ^ e := by
  have hvalue := shiftLeft_value m (e - t).toNat e
  rwa [Int.toNat_of_nonneg (sub_nonneg.mpr ht), sub_sub_cancel] at hvalue

theorem apply_eq_signFactor_mul (s : Sign) (m : ℕ) : ((s.apply m : ℤ) : ℝ) = signFactor s * m := by
  cases s <;> simp [Sign.apply, signFactor]

/-! ## §2 Rounding a mantissa of any exponent -/

private theorem log2_shiftLeft {m : ℕ} (hm : 0 < m) (k : ℕ) : (m <<< k).log2 = m.log2 + k := by
  rw [Nat.shiftLeft_eq]
  refine (Nat.log2_eq_iff (by positivity)).mpr ⟨?_, ?_⟩
  · rw [pow_add]
    exact Nat.mul_le_mul_right _ (Nat.log2_self_le hm.ne')
  · rw [show m.log2 + k + 1 = (m.log2 + 1) + k by omega, pow_add]
    exact Nat.mul_lt_mul_of_pos_right Nat.lt_log2_self (by positivity)

private theorem rounds_round (s : Sign) {m : ℕ} (hm : 0 < m) (e : ℤ) :
    Rounds (UnpackedFloat.round Format.binary64 s m e) (signFactor s * (m * 2 ^ e)) := by
  set t := Format.binary64.targetExponent (totalExponent m e) with ht
  set k := (e - t).toNat with hk
  have hlog : (m <<< k).log2 = m.log2 + k := log2_shiftLeft hm k
  -- Bits added at the lower end leave the leading bit where it was.
  have htotal : totalExponent (m <<< k) (e - k) = totalExponent m e := by
    rw [totalExponent, totalExponent, hlog]
    push_cast
    ring
  have hpos : (0 : ℝ) < (m <<< k : ℕ) := by
    rw [Nat.shiftLeft_eq]
    positivity
  have hrounds := rounds_roundWithAccuracy s (Describes.natCast (m <<< k)) hpos
    (e := e - k) (by rw [htotal, ← ht]; omega)
  exact hrounds.of_eq (by rw [shiftLeft_value])

/-- An exact sum of two mantissas is rounded once. -/
theorem rounds_normalize (m e : ℤ) (s : Sign) :
    Rounds (UnpackedFloat.normalize Format.binary64 m e s) (m * 2 ^ e) := by
  unfold UnpackedFloat.normalize
  rcases lt_trichotomy m 0 with hneg | rfl | hpos
  · rw [Int.compare_eq_lt.mpr hneg]
    apply (rounds_round .negative (by omega) e).of_eq
    have hcast : (((-m).toNat : ℕ) : ℝ) = -m := by
      exact_mod_cast Int.toNat_of_nonneg (show 0 ≤ -m by omega)
    rw [hcast, signFactor]
    ring
  · rw [Int.compare_eq_eq.mpr rfl]
    exact (rounds_zero s).of_eq (by simp)
  · rw [Int.compare_eq_gt.mpr hpos]
    apply (rounds_round .positive (by omega) e).of_eq
    have hcast : ((m.toNat : ℕ) : ℝ) = m := by
      exact_mod_cast Int.toNat_of_nonneg hpos.le
    rw [hcast, signFactor, one_mul]

theorem rounds_ofNat (n : ℕ) : Rounds (UnpackedFloat.ofNat Format.binary64 n) n :=
  (rounds_normalize n 0 .positive).of_eq (by simp)

/-! ## §3 Sums and differences -/

variable {u w : UnpackedFloat}

theorem canonical_neg (hu : Canonical u) : Canonical u.neg := by
  cases u <;> exact hu

@[simp] theorem isFinite_neg : u.neg.isFinite = u.isFinite := by
  cases u <;> rfl

@[simp] theorem finiteValue_neg : finiteValue u.neg = -finiteValue u := by
  cases u <;> simp [UnpackedFloat.neg, finiteValue]

/-- The sum of two finite readings is their exact sum rounded. -/
theorem rounds_add (hu : Canonical u) (hw : Canonical w) (hfu : u.isFinite = true)
    (hfw : w.isFinite = true) :
    Rounds (UnpackedFloat.add Format.binary64 u w) (finiteValue u + finiteValue w) := by
  rcases isFinite_cases hfu with ⟨s, rfl⟩ | ⟨s, m, e, hm, rfl⟩
  · rcases isFinite_cases hfw with ⟨t, rfl⟩ | ⟨t, n, f, hn, rfl⟩
    · simp only [UnpackedFloat.add, finiteValue, add_zero]
      split <;> exact rounds_zero _
    · exact (rounds_self hw rfl).of_eq (zero_add _).symm
  · rcases isFinite_cases hfw with ⟨t, rfl⟩ | ⟨t, n, f, hn, rfl⟩
    · exact (rounds_self hu rfl).of_eq (add_zero _).symm
    · -- Both mantissas are written with the smaller exponent, and then added exactly.
      apply (rounds_normalize _ (min e f) .positive).of_eq
      rw [Int.cast_add, apply_eq_signFactor_mul, apply_eq_signFactor_mul, add_mul, mul_assoc,
        mul_assoc]
      exact congrArg₂ (signFactor s * · + signFactor t * ·) (aligned_value (min_le_left e f))
        (aligned_value (min_le_right e f))

/-- A difference is the sum with the sign of the second operand reversed. -/
theorem sub_eq_add (u w : UnpackedFloat) :
    UnpackedFloat.sub Format.binary64 u w = UnpackedFloat.add Format.binary64 u w.neg := by
  cases u <;> cases w <;> try rfl
  case finite.finite s m e hm t n f hn =>
    have hsign : s.apply (decreaseExponent m e (min e f)).1 -
        t.apply (decreaseExponent n f (min e f)).1 =
        s.apply (decreaseExponent m e (min e f)).1 +
          (-t).apply (decreaseExponent n f (min e f)).1 := by
      cases t
      · exact Int.sub_neg _ _
      · exact Int.sub_eq_add_neg
    exact congrArg (UnpackedFloat.normalize Format.binary64 · (min e f) .positive) hsign

/-- The difference of two finite readings is their exact difference rounded. -/
theorem rounds_sub (hu : Canonical u) (hw : Canonical w) (hfu : u.isFinite = true)
    (hfw : w.isFinite = true) :
    Rounds (UnpackedFloat.sub Format.binary64 u w) (finiteValue u - finiteValue w) := by
  rw [sub_eq_add]
  apply (rounds_add hu (canonical_neg hw) hfu (by rwa [isFinite_neg])).of_eq
  rw [finiteValue_neg, sub_eq_add_neg]

/-! ## §4 Products -/

private theorem le_targetExponent_of_lead {m : ℕ} {e : ℤ} (h : 2 ^ 52 ≤ m ∨ e ≤ -1074) :
    e ≤ Format.binary64.targetExponent (totalExponent m e) := by
  rw [targetExponent_eq, totalExponent]
  rcases h with hlead | hleast
  · have hlog : 52 ≤ m.log2 := (Nat.le_log2 (by omega)).mpr hlead
    omega
  · omega

/-- The product of two finite readings is their exact product rounded. -/
theorem rounds_mul (hu : Canonical u) (hw : Canonical w) (hfu : u.isFinite = true)
    (hfw : w.isFinite = true) :
    Rounds (UnpackedFloat.mul Format.binary64 u w) (finiteValue u * finiteValue w) := by
  rcases isFinite_cases hfu with ⟨s, rfl⟩ | ⟨s, m, e, hm, rfl⟩
  · rcases isFinite_cases hfw with ⟨t, rfl⟩ | ⟨t, n, f, hn, rfl⟩
    · exact (rounds_zero _).of_eq (zero_mul _).symm
    · exact (rounds_zero _).of_eq (zero_mul _).symm
  · rcases isFinite_cases hfw with ⟨t, rfl⟩ | ⟨t, n, f, hn, rfl⟩
    · exact (rounds_zero _).of_eq (mul_zero _).symm
    · have hpos : (0 : ℝ) < (m * n : ℕ) := by exact_mod_cast Nat.mul_pos hm hn
      -- One factor with its leading bit is enough; else both are at the least exponent.
      have hlead : 2 ^ 52 ≤ m * n ∨ e + f ≤ -1074 := by
        rcases hu.2.2 with hlow | rfl
        · exact Or.inl (hlow.trans (Nat.le_mul_of_pos_right m hn))
        · rcases hw.2.2 with hlow | rfl
          · exact Or.inl (hlow.trans (Nat.le_mul_of_pos_left n hm))
          · exact Or.inr (by norm_num)
      refine (rounds_roundWithAccuracy (s * t) (Describes.natCast (m * n)) hpos
        (le_targetExponent_of_lead hlead)).of_eq ?_
      rw [signFactor_mul, zpow_add₀ two_ne_zero, finiteValue, finiteValue]
      push_cast
      ring

/-- A whole decimal number is that number rounded. -/
theorem rounds_ofScientific {n : ℕ} (hn : 0 < n) {k : ℕ} (hk : k ≤ 2048) :
    Rounds (UnpackedFloat.ofScientific Format.binary64 n k) ((n * 10 ^ k : ℕ) : ℝ) := by
  have hpos : 0 < n <<< 53 * 10 ^ k := by
    rw [Nat.shiftLeft_eq]
    positivity
  have hlead : 2 ^ 52 ≤ n <<< 53 * 10 ^ k := by
    rw [Nat.shiftLeft_eq]
    calc 2 ^ 52 ≤ n * 2 ^ 53 := by omega
      _ ≤ n * 2 ^ 53 * 10 ^ k := Nat.le_mul_of_pos_right _ (by positivity)
  have hbits : (2 : ℤ) ^ Format.binary64.exponentBits = 2048 := rfl
  -- The shift by 53 places makes room for rounding.
  have hproduct : UnpackedFloat.ofScientific Format.binary64 n k =
      roundWithAccuracy Format.binary64 .positive (n <<< 53 * 10 ^ k) (-53 + 0) .exact := by
    unfold UnpackedFloat.ofScientific
    rw [dif_neg hn.ne', if_neg (by omega), if_neg (by omega), if_pos (by omega)]
    rfl
  rw [hproduct]
  refine (rounds_roundWithAccuracy .positive (Describes.natCast (n <<< 53 * 10 ^ k))
    (by exact_mod_cast hpos) (le_targetExponent_of_lead (Or.inl hlead))).of_eq ?_
  rw [signFactor, Nat.shiftLeft_eq]
  push_cast
  rw [zpow_neg]
  field_simp
  norm_num

/-! ## §5 Quotients -/

private theorem describes_div (p n : ℕ) (hn : 0 < n) :
    Describes (.ofMantissaAndAccuracy (p / n) (accuracyOfFraction (p % n) n)) ((p : ℝ) / n) := by
  have hn' : (0 : ℝ) < n := by exact_mod_cast hn
  have hsplit : (p : ℝ) = n * (p / n : ℕ) + (p % n : ℕ) := by
    exact_mod_cast (Nat.div_add_mod p n).symm
  have hrest : ((p % n : ℕ) : ℝ) < n := by exact_mod_cast Nat.mod_lt p hn
  have hfloor : ⌊(p : ℝ) / n⌋ = ((p / n : ℕ) : ℤ) := by
    rw [Int.floor_eq_iff, Int.cast_natCast, le_div_iff₀ hn', div_lt_iff₀ hn']
    constructor <;> linarith [Nat.cast_nonneg (α := ℝ) (p % n)]
  have hfract : Int.fract ((p : ℝ) / n) = (p % n : ℕ) / n := by
    rw [Int.fract, hfloor, Int.cast_natCast, eq_div_iff hn'.ne', sub_mul, div_mul_cancel₀ _ hn'.ne']
    linarith
  -- Comparing the rest with one half is comparing its double with the divisor.
  have hdouble : (2 * (p % n) : ℕ) < n ↔ Int.fract ((p : ℝ) / n) < 1 / 2 := by
    rw [hfract, div_lt_div_iff₀ hn' two_pos, ← Nat.cast_lt (α := ℝ)]
    push_cast
    constructor <;> intro h <;> linarith
  have hdouble' : (2 * (p % n) : ℕ) = n ↔ Int.fract ((p : ℝ) / n) = 1 / 2 := by
    rw [hfract, div_eq_div_iff hn'.ne' two_ne_zero, ← Nat.cast_inj (R := ℝ)]
    push_cast
    constructor <;> intro h <;> linarith
  have hzero : p % n = 0 ↔ Int.fract ((p : ℝ) / n) = 0 := by
    rw [hfract, div_eq_zero_iff, Nat.cast_eq_zero]
    exact ⟨Or.inl, fun h => h.resolve_right hn'.ne'⟩
  unfold accuracyOfFraction
  split
  · rename_i hnone
    exact Describes.exact hfloor (hzero.mp hnone)
  · rename_i hsome
    apply Describes.inexact hfloor (mt hzero.mpr hsome)
    · rw [Nat.compare_eq_lt, hdouble]
    · rw [Nat.compare_eq_eq, hdouble']

private theorem two_pow_le_shiftLeft {m k j : ℕ} (hm : 0 < m) (hbits : j ≤ m.log2 + k) :
    2 ^ j ≤ m <<< k := by
  have hpos : 0 < m <<< k := by
    rw [Nat.shiftLeft_eq]
    positivity
  calc 2 ^ j ≤ 2 ^ (m <<< k).log2 :=
        Nat.pow_le_pow_right two_pos (by rwa [log2_shiftLeft hm k])
    _ ≤ m <<< k := Nat.log2_self_le hpos.ne'

/-- The quotient of a finite reading by one that is not zero is their exact quotient rounded. -/
theorem rounds_div (hu : Canonical u) (hw : Canonical w) (hfu : u.isFinite = true)
    (hfw : w.isFinite = true) (hzero : finiteValue w ≠ 0) :
    Rounds (UnpackedFloat.div Format.binary64 u w) (finiteValue u / finiteValue w) := by
  rcases isFinite_cases hfw with ⟨t, rfl⟩ | ⟨t, n, f, hn, rfl⟩
  · exact absurd rfl hzero
  · rcases isFinite_cases hfu with ⟨s, rfl⟩ | ⟨s, m, e, hm, rfl⟩
    · exact (rounds_zero _).of_eq (zero_div _).symm
    · set g := min (e - f) (Format.binary64.targetExponent (totalExponent m e - totalExponent n f))
        with hg
      set k := (e - f - g).toNat with hk
      have hgap : e - f = g + k := by omega
      have hn' : (0 : ℝ) < n := by exact_mod_cast hn
      have hpos : (0 : ℝ) < (m <<< k : ℕ) / n := by
        rw [Nat.shiftLeft_eq]
        positivity
      -- The dividend was given so many bits that the quotient has its leading bit in place.
      have hlead : 2 ^ 52 ≤ (m <<< k) / n ∨ g ≤ -1074 := by
        by_cases hleast : g ≤ -1074
        · exact Or.inr hleast
        · left
          have hbits : 52 + (n.log2 + 1) ≤ m.log2 + k := by
            rw [targetExponent_eq, totalExponent, totalExponent] at hg
            omega
          rw [Nat.le_div_iff_mul_le hn]
          calc 2 ^ 52 * n ≤ 2 ^ 52 * 2 ^ (n.log2 + 1) := Nat.mul_le_mul_left _ Nat.lt_log2_self.le
            _ = 2 ^ (52 + (n.log2 + 1)) := (pow_add 2 52 (n.log2 + 1)).symm
            _ ≤ m <<< k := two_pow_le_shiftLeft hm hbits
      refine (rounds_roundWithAccuracy (s / t) (describes_div (m <<< k) n hn) hpos
        (le_targetExponent_of_lead hlead)).of_eq ?_
      have hexp : (2 : ℝ) ^ e = 2 ^ f * 2 ^ g * 2 ^ k := by
        rw [← zpow_natCast, ← zpow_add₀ two_ne_zero, ← zpow_add₀ two_ne_zero]
        congr 1
        omega
      have hf := two_zpow_pos f
      rw [signFactor_div, finiteValue, finiteValue, hexp, Nat.shiftLeft_eq]
      push_cast
      field_simp

/-! ## §6 Square roots -/

private theorem describes_sqrt (p : ℕ) :
    Describes (.ofMantissaAndAccuracy p.sqrt (if p - p.sqrt * p.sqrt = 0 then .exact
      else .inexact (if p - p.sqrt * p.sqrt ≤ p.sqrt then .lt else .gt))) (√(p : ℝ)) := by
  have hfloor : ⌊√(p : ℝ)⌋ = (p.sqrt : ℤ) := Real.floor_real_sqrt_eq_nat_sqrt
  have hfract : √(p : ℝ) = p.sqrt + Int.fract √(p : ℝ) := by
    rw [Int.fract, hfloor]
    push_cast
    ring
  have hlow := Int.fract_nonneg √(p : ℝ)
  have hsquare : (p : ℝ) = p.sqrt * p.sqrt + (p - p.sqrt * p.sqrt : ℕ) := by
    exact_mod_cast (Nat.add_sub_of_le (Nat.sqrt_le p)).symm
  set r := p.sqrt
  set d := p - r * r
  set x := Int.fract √(p : ℝ)
  -- The rest of the radicand is what the rest of the root adds to the square.
  have hrest : (d : ℝ) = x * (2 * r + x) := by
    have hroot := Real.mul_self_sqrt (Nat.cast_nonneg (α := ℝ) p)
    rw [hfract] at hroot
    linarith
  have hr : (0 : ℝ) ≤ r := Nat.cast_nonneg r
  have hzero : d = 0 ↔ x = 0 := by
    rw [← Nat.cast_eq_zero (R := ℝ), hrest, mul_eq_zero]
    exact ⟨fun h => h.elim id (fun h => by linarith), Or.inl⟩
  have hbelow : d ≤ r ↔ x < 1 / 2 := by
    constructor
    · intro h
      have hreal : (d : ℝ) ≤ r := by exact_mod_cast h
      by_contra hhalf
      nlinarith
    · intro h
      have hreal : (d : ℝ) < r + 1 := by nlinarith
      exact Nat.lt_succ_iff.mp (by exact_mod_cast hreal)
  -- A rest of one half would give four times the radicand an odd remainder, so no tie arises.
  have hmiddle : x ≠ 1 / 2 := by
    intro h
    have hfour : (4 * d : ℝ) = 4 * r + 1 := by
      rw [hrest, h]
      ring
    have hfour' : 4 * d = 4 * r + 1 := by exact_mod_cast hfour
    omega
  by_cases hnone : d = 0
  · rw [if_pos hnone]
    exact Describes.exact hfloor (hzero.mp hnone)
  · rw [if_neg hnone]
    apply Describes.inexact hfloor (mt hzero.mpr hnone)
    · rw [← hbelow]
      split
      · rename_i hle
        exact iff_of_true rfl hle
      · rename_i hgt
        exact iff_of_false (by simp) hgt
    · refine iff_of_false ?_ hmiddle
      split <;> simp

/-- The square root of a finite reading that is not negative is its exact root rounded. -/
theorem rounds_sqrt (hu : Canonical u) (hfu : u.isFinite = true) (hsign : 0 ≤ finiteValue u) :
    Rounds (UnpackedFloat.sqrt Format.binary64 u) √(finiteValue u) := by
  rcases isFinite_cases hfu with ⟨s, rfl⟩ | ⟨s, m, e, hm, rfl⟩
  · exact (rounds_zero s).of_eq Real.sqrt_zero.symm
  · have hvalue : 0 < (m : ℝ) * 2 ^ e := magnitude_pos hm e
    cases s with
    | negative =>
      rw [finiteValue, signFactor] at hsign
      linarith
    | positive =>
      set g := min (e.ediv 2) (Format.binary64.targetExponent ((totalExponent m e + 1).ediv 2))
        with hg
      set k := (e - 2 * g).toNat with hk
      have hgap : e = 2 * g + k := by
        have hhalf : g ≤ e / 2 := min_le_left _ _
        omega
      have hpos : 0 < √((m <<< k : ℕ) : ℝ) := by
        rw [Nat.shiftLeft_eq]
        exact Real.sqrt_pos.mpr (by positivity)
      -- The radicand was given so many bits that the root has its leading bit in place.
      have hlead : 2 ^ 52 ≤ (m <<< k).sqrt ∨ g ≤ -1074 := by
        by_cases hleast : g ≤ -1074
        · exact Or.inr hleast
        · left
          have hbits : 52 + 52 ≤ m.log2 + k := by
            have hroom : g ≤ (totalExponent m e + 1) / 2 - 53 := by
              have hle : g ≤ max ((totalExponent m e + 1) / 2 - 53) (-1074) := min_le_right _ _
              omega
            rw [totalExponent] at hroom
            omega
          rw [Nat.le_sqrt]
          calc 2 ^ 52 * 2 ^ 52 = 2 ^ (52 + 52) := (pow_add 2 52 52).symm
            _ ≤ m <<< k := two_pow_le_shiftLeft hm hbits
      refine (rounds_roundWithAccuracy .positive (describes_sqrt (m <<< k)) hpos
        (le_targetExponent_of_lead hlead)).of_eq ?_
      -- What is left beside the radicand is a square, so its root comes out exactly.
      have hsplit : (m : ℝ) * 2 ^ e = (m <<< k : ℕ) * (2 ^ g * 2 ^ g) := by
        rw [hgap, zpow_add₀ two_ne_zero, zpow_natCast, two_mul, zpow_add₀ two_ne_zero,
          Nat.shiftLeft_eq]
        push_cast
        ring
      rw [finiteValue, signFactor, one_mul, one_mul, hsplit, Real.sqrt_mul (Nat.cast_nonneg _),
        Real.sqrt_mul_self (two_zpow_pos g).le]

end OnlineAggregation.Binary64
