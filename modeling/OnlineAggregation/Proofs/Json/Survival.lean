import OnlineAggregation.Proofs.Decimal.RoundTrip
import OnlineAggregation.Proofs.Json.RereadError

/-!
# Numbers that survive

A number is written as the shortest decimal that rounds to it. The reader does not round the decimal
but the digits, the power of ten, and their product or quotient, and each time a little is lost.
Main statements: a number is read back as itself, to the last bit, exactly if the steps of the
reader come to it; and they do if the digits and the power are exact, as they are for a text of at
most fifteen digits and no exponent.
-/

namespace OnlineAggregation.Json

open Binary64 Decimal

/-! ## §1 Exact steps -/

/-- The first powers of ten are exact. -/
theorem tenPower_eq {k : ℕ} (hk : k ≤ 22) : tenPower k = 10 ^ k := by
  -- The power of five fits in a mantissa, and the power of two only moves the point.
  have hfive : |((5 ^ k : ℕ) : ℤ)| ≤ 2 ^ 53 := by
    rw [Nat.abs_cast]
    exact_mod_cast (Nat.pow_le_pow_right (by norm_num) hk).trans (by norm_num : 5 ^ 22 ≤ 2 ^ 53)
  have hrepresentable : Representable (((5 ^ k : ℕ) : ℤ) * 2 ^ (k : ℤ)) :=
    Representable.of_le hfive (by omega)
  have hten : (((5 ^ k : ℕ) : ℤ) : ℝ) * 2 ^ (k : ℤ) = ((10 ^ k : ℕ) : ℝ) := by
    rw [zpow_natCast]
    push_cast
    rw [← mul_pow]
    norm_num
  rw [tenPower, ← hten, hrepresentable.rounded_eq, hten]
  push_cast
  rfl

/-- With exact digits and an exact power the only rounding is that of the decimal. -/
theorem scaledValue_of_exact {c : ℕ} {e : ℤ} (hc : c ≤ 2 ^ 53) (he : e.natAbs ≤ 22) :
    scaledValue c e = rounded (c * 10 ^ e) := by
  unfold scaledValue
  rw [(representable_natCast hc).rounded_eq, tenPower_eq he, if_pos (he.trans (by norm_num))]
  split_ifs with hsign
  · rw [← zpow_natCast, Int.natAbs_of_nonneg hsign]
  · rw [← zpow_natCast, show (e.natAbs : ℤ) = -e by omega, zpow_neg, div_inv_eq_mul]

/-! ## §2 Survival -/

/-- The steps of the reader come to the number itself. -/
def Survives (x : Float) : Prop :=
  ∃ negative v, Binary.ofFloat x = .finite negative v ∧ rereadValue v = v.value

/-- Whether the digits of the text fit in a mantissa and the power of ten is an exact one. -/
def isShort (x : Float) : Bool :=
  match Binary.ofFloat x with
  | .finite _ v =>
    let s := asRead (shortest v .toEven)
    s.coefficient ≤ Nat.pow 2 53 && s.exponent.natAbs ≤ 22
  | _ => false

variable {x : Float}

/-- Each zero is read as itself. -/
private theorem reread_of_zero {negative : Bool} {v : Magnitude} (hnan : x.isNaN = false)
    (hx : Binary.ofFloat x = .finite negative v) (hv : v.IsCanonical) (hzero : v.value = 0) :
    reread x = x := by
  have hmantissa : v.mantissa = 0 := v.value_eq_zero_iff.mp hzero
  have hlead := hv.lead
  obtain rfl : v = ⟨0, -1074⟩ := by
    cases v
    simp_all
  have hsigned : x = if negative then -0.0 else 0.0 := by
    apply Binary.ofFloat_injective hnan
    rw [hx]
    cases negative <;> decide
  rw [hsigned]
  cases negative <;> decide +kernel

/-- **A number is read back as itself**, to the last bit, exactly if it survives the steps of the
reader. -/
theorem reread_eq_iff (hx : x.isFinite = true) : reread x = x ↔ Survives x := by
  obtain ⟨r, hr⟩ := isFinite_iff_exists_reads.mp hx
  obtain ⟨negative, v, hof, hv, rfl, hread⟩ := exists_signed hr
  have hsurvives : Survives x ↔ rereadValue v = v.value := by
    constructor
    · rintro ⟨negative', w, hw, hvalue⟩
      cases hof.symm.trans hw
      exact hvalue
    · exact fun hvalue => ⟨negative, v, hof, hvalue⟩
  rw [hsurvives]
  constructor
  · intro hsame
    rw [hsame] at hread
    have hpoint := EReal.coe_injective (hread.unique hr)
    cases negative with
    | false => exact hpoint
    | true => exact neg_injective hpoint
  · intro hvalue
    rw [hvalue] at hread
    by_cases hzero : v.value = 0
    · exact reread_of_zero hr.isNaN_eq hof hv hzero
    · -- Apart from zero the point has one number.
      refine Binary.eq_of_reads hread hr ?_
      cases negative with
      | false => exact_mod_cast hzero
      | true => exact_mod_cast neg_ne_zero.mpr hzero

/-- **Short numbers survive**: their steps are exact, and the decimal rounds to the number. -/
theorem survives_of_isShort (hx : x.isFinite = true) (h : isShort x = true) : Survives x := by
  obtain ⟨r, hr⟩ := isFinite_iff_exists_reads.mp hx
  obtain ⟨negative, v, hof, hv, -, -⟩ := exists_signed hr
  rw [isShort, hof] at h
  dsimp only at h
  rw [Bool.and_eq_true, decide_eq_true_eq, decide_eq_true_eq] at h
  refine ⟨negative, v, hof, ?_⟩
  rw [rereadValue, scaledValue_of_exact h.1 h.2, value_asRead, rounded_shortest hv]

end OnlineAggregation.Json
