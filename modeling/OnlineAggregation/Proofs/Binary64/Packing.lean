import Mathlib

/-!
# Bit patterns and their readings

A binary64 number is kept as 64 bits and read as a sign, a mantissa and an exponent. Main
statements: every reading is canonical, and writing a canonical reading down and reading it again
gives it back, or an infinity if its exponent is too large.
-/

namespace OnlineAggregation.Binary64

open Float.Model Float.Model.UnpackedFloat

/-! ## §1 Canonical readings -/

theorem isFinite_cases {u : UnpackedFloat} (hu : u.isFinite = true) :
    (∃ s, u = .zero s) ∨ ∃ s m e hm, u = .finite s m e hm := by
  cases u with
  | infinity s => exact absurd hu Bool.false_ne_true
  | notANumber => exact absurd hu Bool.false_ne_true
  | zero s => exact Or.inl ⟨s, rfl⟩
  | finite s m e hm => exact Or.inr ⟨s, m, e, hm, rfl⟩

/-- A mantissa of 53 bits, or fewer at the least exponent. -/
def Canonical : UnpackedFloat → Prop
  | .finite _ m e _ => m < 2 ^ 53 ∧ -1074 ≤ e ∧ (2 ^ 52 ≤ m ∨ e = -1074)
  | _ => True

/-- The reading with an exponent beyond the format replaced by infinity. -/
def clip : UnpackedFloat → UnpackedFloat
  | .finite s m e hm => if 972 ≤ e then .infinity s else .finite s m e hm
  | u => u

private theorem unpackSign_packComponents {spec : Format} {s : Sign}
    {e : BitVec spec.exponentBits} {m : BitVec spec.mantissaBitsWithoutImplicit} :
    Sign.ofBitVec (unpackSign (packComponents spec s e m)) = s := by
  have hsign : unpackSign (packComponents spec s e m) = s.toBitVec := by
    ext i hi
    obtain rfl : i = 0 := by omega
    simp [unpackSign, packComponents, BitVec.getLsbD_append, BitVec.getElem_append]
  rw [hsign]
  cases s <;> rfl

theorem toNat_leadingBit (m : BitVec 52) : (1#1 ++ m).toNat = 2 ^ 52 + m.toNat := by
  rw [BitVec.toNat_append, ← Nat.shiftLeft_add_eq_or_of_lt m.isLt]
  rfl

/-- What is read from a bit pattern is canonical and within the format. -/
theorem canonical_unpack (v : Float.Model) : Canonical v.unpack ∧ clip v.unpack = v.unpack := by
  have hmantissa := (@unpackMantissa Format.binary64 v.toBits.toBitVec).isLt
  have hexponent := (@unpackExponent Format.binary64 v.toBits.toBitVec).isLt
  unfold Float.Model.unpack UnpackedFloat.unpack
  dsimp only
  -- The greatest exponent field is kept for NaN and infinities, the least for zeros and subnormals.
  split
  · split <;> exact ⟨trivial, rfl⟩
  rename_i hfull
  have hfull' : (@unpackExponent Format.binary64 v.toBits.toBitVec).toNat ≠ 2047 :=
    fun h => hfull (BitVec.eq_of_toNat_eq h)
  split
  · rename_i hempty
    split
    · exact ⟨trivial, rfl⟩
    · have hempty' : (@unpackExponent Format.binary64 v.toBits.toBitVec).toNat = 0 :=
        congrArg BitVec.toNat hempty
      simp only [Canonical, clip, hempty', Format.exponentBias]
      norm_num at hmantissa ⊢
      omega
  · rename_i hempty
    have hempty' : (@unpackExponent Format.binary64 v.toBits.toBitVec).toNat ≠ 0 :=
      fun h => hempty (BitVec.eq_of_toNat_eq h)
    simp only [Canonical, clip, toNat_leadingBit, Format.exponentBias]
    norm_num at hmantissa hexponent ⊢
    omega

/-! ## §2 Writing a reading down -/

private theorem unpack_pack_of_components {u : UnpackedFloat} {s : Sign} {e : BitVec 11}
    {m : BitVec 52}
    (hu : UnpackedFloat.pack Format.binary64 u = packComponents Format.binary64 s e m) :
    (Float.Model.pack u).unpack =
      UnpackedFloat.unpack Format.binary64 (packComponents Format.binary64 s e m) :=
  congrArg (UnpackedFloat.unpack Format.binary64) hu

private theorem unpack_pack_infinity (s : Sign) :
    (Float.Model.pack (.infinity s)).unpack = .infinity s := by
  cases s <;> rfl

private theorem pack_of_large {s : Sign} {m : ℕ} {e : ℤ} (hm : 0 < m) (he : 972 ≤ e) :
    Float.Model.pack (.finite s m e hm) = Float.Model.pack (.infinity s) := by
  -- The biased exponent leaves its field of eleven bits, or takes the pattern kept for infinity.
  have hbiased : 2 ^ 11 ≤ (e + 1023 + 52).toNat + 1 := by omega
  unfold Float.Model.pack
  congr 2
  exact if_pos hbiased

private theorem unpack_pack_normal {s : Sign} {m : ℕ} {e : ℤ} (hm : 0 < m) (hhigh : m < 2 ^ 53)
    (hlow : 2 ^ 52 ≤ m) (he : -1074 ≤ e) (he' : e < 972) :
    (Float.Model.pack (.finite s m e hm)).unpack = .finite s m e hm := by
  have hlog : m.log2 = 52 := (Nat.log2_eq_iff hm.ne').mpr ⟨hlow, hhigh⟩
  obtain ⟨b, hb⟩ := Int.eq_ofNat_of_zero_le (show 0 ≤ e + 1023 + 52 by omega)
  have hpack : UnpackedFloat.pack Format.binary64 (.finite s m e hm) =
      packComponents Format.binary64 s (BitVec.ofNat 11 b) (BitVec.ofNat 52 m) := by
    have hsmall : ¬ 2 ^ 11 ≤ (e + 1023 + 52).toNat + 1 := by omega
    have hbiased : (e + 1023 + 52).toNat = b := by omega
    refine (if_neg hsmall).trans ?_
    rw [hlog]
    refine (if_pos rfl).trans ?_
    exact congrArg (packComponents _ s · _) (congrArg (BitVec.ofNat 11) hbiased)
  have hexponent : (BitVec.ofNat 11 b).toNat = b := by
    rw [BitVec.toNat_ofNat]
    omega
  -- The exponent field is neither of the two that are read in a special way.
  have hnotFull : BitVec.ofNat 11 b ≠ -1#11 := by
    intro h
    have hnat := congrArg BitVec.toNat h
    rw [hexponent] at hnat
    norm_num at hnat
    omega
  have hnotEmpty : BitVec.ofNat 11 b ≠ 0#11 := by
    intro h
    have hnat := congrArg BitVec.toNat h
    rw [hexponent] at hnat
    norm_num at hnat
    omega
  -- The leading bit is not written down, and reading puts it back.
  have hmantissa : (1#1 ++ BitVec.ofNat 52 m).toNat = m := by
    rw [toNat_leadingBit, BitVec.toNat_ofNat]
    omega
  rw [unpack_pack_of_components hpack, UnpackedFloat.unpack]
  simp only [unpackExponent_packComponents, unpackMantissa_packComponents,
    unpackSign_packComponents, hnotFull, hnotEmpty, hmantissa, hexponent, if_false]
  congr 1
  simp only [Format.exponentBias]
  norm_num
  omega

private theorem unpack_pack_subnormal {s : Sign} {m : ℕ} (hm : 0 < m) (hhigh : m < 2 ^ 52) :
    (Float.Model.pack (.finite s m (-1074) hm)).unpack = .finite s m (-1074) hm := by
  have hlog : m.log2 + 1 ≠ 53 := by
    have := (Nat.log2_lt hm.ne').mpr hhigh
    omega
  have hpack : UnpackedFloat.pack Format.binary64 (.finite s m (-1074) hm) =
      packComponents Format.binary64 s 0#11 (BitVec.ofNat 52 m) :=
    if_neg hlog
  have hmantissa : (BitVec.ofNat 52 m).toNat = m := by
    rw [BitVec.toNat_ofNat]
    omega
  have hnotEmpty : BitVec.ofNat 52 m ≠ 0#52 := by
    intro h
    have hnat := congrArg BitVec.toNat h
    rw [hmantissa] at hnat
    exact hm.ne' hnat
  rw [unpack_pack_of_components hpack, UnpackedFloat.unpack]
  simp only [unpackExponent_packComponents, unpackMantissa_packComponents,
    unpackSign_packComponents, hnotEmpty, hmantissa]
  rfl

/-- Writing a canonical reading down keeps it, or overflows to infinity. -/
theorem unpack_pack {u : UnpackedFloat} (hu : Canonical u) :
    (Float.Model.pack u).unpack = clip u := by
  cases u with
  | infinity s => exact unpack_pack_infinity s
  | notANumber => rfl
  | zero s => cases s <;> rfl
  | finite s m e hm =>
    obtain ⟨hhigh, hleast, hlow⟩ := hu
    by_cases hlarge : 972 ≤ e
    · rw [clip, if_pos hlarge, pack_of_large hm hlarge, unpack_pack_infinity]
    · rw [clip, if_neg hlarge]
      by_cases hnormal : 2 ^ 52 ≤ m
      · exact unpack_pack_normal hm hhigh hnormal hleast (by omega)
      · obtain rfl := hlow.resolve_left hnormal
        exact unpack_pack_subnormal hm (by omega)

end OnlineAggregation.Binary64
