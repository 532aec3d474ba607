import OnlineAggregation.Decimal.Binary
import OnlineAggregation.Proofs.Binary64.Arithmetic

/-!
# The exact form of a number

A number is taken apart twice: for arithmetic into a reading, and for text into a mantissa and an
exponent. Main statements: both are the same, so a number that is finite has a mantissa and an
exponent within the format, and one that is not has none; and apart from NaN and the two zeros, what
a number stands for says all its bits.
-/

namespace OnlineAggregation.Decimal

open Binary64
open Float.Model Float.Model.UnpackedFloat

/-! ## §1 The fields of a bit pattern -/

section Fields

variable (b : BitVec 64)

private theorem toNat_unpackMantissa :
    (@unpackMantissa Format.binary64 b).toNat = b.toNat % Nat.pow 2 52 := by
  simp [unpackMantissa, BitVec.extractLsb, BitVec.extractLsb']

private theorem toNat_unpackExponent :
    (@unpackExponent Format.binary64 b).toNat = b.toNat / Nat.pow 2 52 % Nat.pow 2 11 := by
  simp [unpackExponent, BitVec.extractLsb, BitVec.extractLsb', Nat.shiftRight_eq_div_pow]

private theorem isNegative_unpackSign :
    (b.toNat / Nat.pow 2 63 == 1) = (Sign.ofBitVec (@unpackSign Format.binary64 b) == .negative) := by
  have hfield : (@unpackSign Format.binary64 b).toNat = b.toNat / Nat.pow 2 63 := by
    have hb : b.toNat / 2 ^ 63 < 2 := Nat.div_lt_of_lt_mul b.isLt
    simp only [unpackSign, BitVec.extractLsb, BitVec.extractLsb', BitVec.toNat_cast,
      BitVec.toNat_ofNat, Nat.shiftRight_eq_div_pow]
    exact Nat.mod_eq_of_lt hb
  rw [← hfield]
  -- A field of one bit has two values.
  have hcases : ∀ v : BitVec 1, (v.toNat == 1) = (Sign.ofBitVec v == Sign.negative) := by decide
  exact hcases _

end Fields

/-! ## §2 Readings -/

/-- The exact form of a reading. -/
def Binary.ofReading : UnpackedFloat → Binary
  | .notANumber => .nan
  | .infinity s => .infinite (s == .negative)
  | .zero s => .finite (s == .negative) ⟨0, -1074⟩
  | .finite s m e _ => .finite (s == .negative) ⟨m, e⟩

/-- Taking the bit pattern apart gives the reading. -/
theorem Binary.ofFloat_eq (x : Float) : ofFloat x = ofReading x.toModel.unpack := by
  set b := x.toBits.toBitVec with hb
  have hmantissa := toNat_unpackMantissa b
  have hexponent := toNat_unpackExponent b
  have hbits : x.toBits.toNat = b.toNat := rfl
  have hunpack : x.toModel.unpack = UnpackedFloat.unpack Format.binary64 b := rfl
  rw [hunpack, UnpackedFloat.unpack, ofFloat, hbits]
  dsimp only
  rw [isNegative_unpackSign, ← hmantissa, ← hexponent]
  set s := Sign.ofBitVec (@unpackSign Format.binary64 b)
  set e := @unpackExponent Format.binary64 b
  -- Both look at the same three patterns of the exponent field and at an empty mantissa field.
  have hfull : e.toNat = 2047 ↔ e = -1#11 := BitVec.toNat_inj (y := -1#11)
  have hempty : e.toNat = 0 ↔ e = 0#11 := BitVec.toNat_inj (y := 0#11)
  have hzero : (@unpackMantissa Format.binary64 b).toNat = 0 ↔
      @unpackMantissa Format.binary64 b = 0#52 := BitVec.toNat_inj (y := 0#52)
  simp only [hfull, hempty]
  split
  · by_cases hmantissa_zero : @unpackMantissa Format.binary64 b = 0#52
    · rw [if_pos (hzero.mpr hmantissa_zero), if_pos hmantissa_zero]
      rfl
    · rw [if_neg (mt hzero.mp hmantissa_zero), if_neg hmantissa_zero]
      rfl
  · split
    · rename_i hexponent_zero
      split
      · rename_i hmantissa_zero
        rw [hmantissa_zero]
        rfl
      · rw [hexponent_zero]
        rfl
    · rw [ofReading, toNat_leadingBit, Nat.add_comm]
      rfl

/-- The mantissa and the exponent are those of the format: the leading bit is there unless the
exponent is the least one. -/
structure Magnitude.IsCanonical (v : Magnitude) : Prop where
  mantissa_lt : v.mantissa < 2 ^ 53
  least_le : -1074 ≤ v.exponent
  le_greatest : v.exponent ≤ 971
  lead : 2 ^ 52 ≤ v.mantissa ∨ v.exponent = -1074

/-- The number that a mantissa and an exponent stand for. -/
noncomputable def Magnitude.value (v : Magnitude) : ℝ :=
  v.mantissa * (2 : ℕ) ^ v.exponent

theorem Magnitude.value_eq (v : Magnitude) : v.value = v.mantissa * 2 ^ v.exponent :=
  rfl

theorem Magnitude.value_nonneg (v : Magnitude) : 0 ≤ v.value :=
  mul_nonneg (Nat.cast_nonneg _) (two_zpow_pos _).le

theorem Magnitude.value_eq_zero_iff (v : Magnitude) : v.value = 0 ↔ v.mantissa = 0 := by
  rw [value_eq, mul_eq_zero_iff_right (two_zpow_pos _).ne', Nat.cast_eq_zero]

/-- Each number is written in one way only. -/
theorem Magnitude.IsCanonical.eq_of_value_eq {v w : Magnitude} (hv : v.IsCanonical)
    (hw : w.IsCanonical) (h : v.value = w.value) : v = w := by
  have hexponent : v.exponent = w.exponent := by
    by_cases hzero : v.value = 0
    · have hv0 := v.value_eq_zero_iff.mp hzero
      have hw0 := w.value_eq_zero_iff.mp (h ▸ hzero)
      have hv' := hv.lead
      have hw' := hw.lead
      omega
    · -- The exponent is the last place of the number.
      have hplace : ∀ {u : Magnitude}, u.IsCanonical → u.value ≠ 0 →
          lastPlace u.value = u.exponent := by
        intro u hu hne
        have habs : |u.value| = u.value := abs_of_nonneg u.value_nonneg
        refine lastPlace_eq hu.least_le ?_ ?_
        · rw [habs, add_comm]
          exact magnitude_lt_two_zpow hu.mantissa_lt u.exponent
        · rw [habs, add_comm]
          exact hu.lead.imp (fun hlead => two_zpow_le_magnitude hlead u.exponent) (⟨·, hne⟩)
      rw [← hplace hv hzero, ← hplace hw (h ▸ hzero), h]
  have hmantissa : v.mantissa = w.mantissa := by
    rw [value_eq, value_eq, hexponent] at h
    exact_mod_cast mul_right_cancel₀ (two_zpow_pos _).ne' h
  cases v
  cases w
  simp_all

/-- Apart from zero the sign belongs to the number as well. -/
theorem Magnitude.IsCanonical.eq_of_signed_eq {v w : Magnitude} (hv : v.IsCanonical)
    (hw : w.IsCanonical) {negative negative' : Bool}
    (h : (if negative then -v.value else v.value) = if negative' then -w.value else w.value)
    (hne : v.value ≠ 0) : negative = negative' ∧ v = w := by
  have hv0 : 0 < v.value := lt_of_le_of_ne v.value_nonneg hne.symm
  have hw0 := w.value_nonneg
  cases negative <;> cases negative' <;> simp only [Bool.false_eq_true, if_true, if_false] at h
  · exact ⟨rfl, hv.eq_of_value_eq hw h⟩
  -- Only zero has both signs.
  · linarith
  · linarith
  · exact ⟨rfl, hv.eq_of_value_eq hw (neg_injective h)⟩

/-- A number that stands for a real number has its absolute value and its sign. -/
theorem Binary.ofFloat_of_reads {x : Float} {r : ℝ} (hx : Reads x r) :
    ∃ negative v, ofFloat x = .finite negative v ∧ v.IsCanonical ∧
      r = if negative then -v.value else v.value := by
  obtain ⟨hcanonical, hfinite, hvalue⟩ := hx.unpack
  have hclip := (canonical_unpack x.toModel).2
  rw [ofFloat_eq, ← hvalue]
  rcases isFinite_cases hfinite with ⟨s, hu⟩ | ⟨s, m, e, hm, hu⟩
  · rw [hu]
    refine ⟨_, _, rfl, ⟨by norm_num, by norm_num, by norm_num, Or.inr rfl⟩, ?_⟩
    simp [finiteValue, Magnitude.value_eq]
  · rw [hu] at hcanonical hclip ⊢
    obtain ⟨hhigh, hleast, hlead⟩ := hcanonical
    have hmost : e ≤ 971 := by
      by_contra hlarge
      rw [clip, if_pos (by omega)] at hclip
      cases hclip
    refine ⟨_, _, rfl, ⟨hhigh, hleast, hmost, hlead⟩, ?_⟩
    cases s <;> simp [finiteValue, signFactor, Magnitude.value_eq]

/-- A finite number has a mantissa of 53 bits and an exponent of the format. -/
theorem Binary.ofFloat_of_isFinite {x : Float} (hx : x.isFinite = true) :
    ∃ negative size, ofFloat x = .finite negative size ∧ size.mantissa < 2 ^ 53 ∧
      -1074 ≤ size.exponent ∧ size.exponent ≤ 971 := by
  obtain ⟨r, hr⟩ := isFinite_iff_exists_reads.mp hx
  obtain ⟨negative, v, hv, hcanonical, -⟩ := ofFloat_of_reads hr
  exact ⟨negative, v, hv, hcanonical.mantissa_lt, hcanonical.least_le, hcanonical.le_greatest⟩

/-- NaN and the infinities have no mantissa. -/
theorem Binary.ofFloat_of_not_isFinite {x : Float} (hx : x.isFinite = false) :
    ofFloat x = .nan ∨ ∃ negative, ofFloat x = .infinite negative := by
  have hx' : x.toModel.unpack.isFinite = false := hx
  rw [ofFloat_eq]
  cases hu : x.toModel.unpack with
  | notANumber => exact Or.inl rfl
  | infinity s => exact Or.inr ⟨_, rfl⟩
  | zero s =>
    rw [hu] at hx'
    cases hx'
  | finite s m e hm =>
    rw [hu] at hx'
    cases hx'

/-! ## §3 Numbers by what they stand for -/

section Unique

variable {x y : Float} {a : EReal}

/-- No two numbers are taken apart in the same way, unless they are NaN. -/
theorem Binary.ofFloat_injective (hx : x.isNaN = false) (h : ofFloat x = ofFloat y) : x = y := by
  have hnan : ofFloat x ≠ .nan := by
    have hx' : x.toModel.unpack.isNaN = false := hx
    rw [ofFloat_eq]
    cases hu : x.toModel.unpack <;> simp_all [ofReading, UnpackedFloat.isNaN]
  have hword : x.toBits.toNat < 2 ^ 64 := x.toBits.toNat_lt
  have hword' : y.toBits.toNat < 2 ^ 64 := y.toBits.toNat_lt
  apply Float.toBits_inj.mp
  apply UInt64.toNat_inj.mp
  unfold ofFloat at h hnan
  dsimp only at h hnan
  generalize x.toBits.toNat = b at *
  generalize y.toBits.toNat = b' at *
  simp only [Nat.pow_eq] at h hnan
  -- The three fields are the digits of the word, so together they give it back.
  split_ifs at h hnan <;> simp at h hnan <;> omega

/-- Each end of the line is one number. -/
private theorem Binary.ofFloat_of_reads_end (hx : Reads x a) (ha : a = ⊤ ∨ a = ⊥) :
    ofFloat x = .infinite (decide (a = ⊥)) := by
  obtain ⟨hnan, hvalue⟩ := hx
  have hreal : ∀ r : ℝ, (r : EReal) ≠ a := by
    rintro r rfl
    exact ha.elim (EReal.coe_ne_top r) (EReal.coe_ne_bot r)
  rw [ofFloat_eq]
  cases hu : x.toModel.unpack with
  | notANumber =>
    have hnan' : x.toModel.unpack.isNaN = false := hnan
    rw [hu] at hnan'
    cases hnan'
  | infinity s =>
    rw [hu] at hvalue
    cases s <;> rw [← hvalue] <;> simp [ofReading, extendedValue]
  | zero s =>
    rw [hu] at hvalue
    exact absurd hvalue (hreal _)
  | finite s m e hm =>
    rw [hu] at hvalue
    exact absurd hvalue (hreal _)

/-- **Apart from zero a point of the line is one number**, to the last bit. -/
theorem Binary.eq_of_reads (hx : Reads x a) (hy : Reads y a) (ha : a ≠ 0) : x = y := by
  apply ofFloat_injective hx.isNaN_eq
  by_cases hend : a = ⊤ ∨ a = ⊥
  · rw [ofFloat_of_reads_end hx hend, ofFloat_of_reads_end hy hend]
  · rw [not_or] at hend
    lift a to ℝ using hend
    obtain ⟨negative, v, hxv, hv, hr⟩ := ofFloat_of_reads hx
    obtain ⟨negative', w, hyw, hw, hr'⟩ := ofFloat_of_reads hy
    have hne : v.value ≠ 0 := by
      intro hzero
      apply ha
      rw [hr, hzero]
      simp
    obtain ⟨rfl, rfl⟩ := hv.eq_of_signed_eq hw (hr.symm.trans hr') hne
    rw [hxv, hyw]

end Unique

end OnlineAggregation.Decimal
