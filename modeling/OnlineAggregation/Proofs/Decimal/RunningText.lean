import OnlineAggregation.Proofs.Decimal.RoundTrip
import OnlineAggregation.Proofs.Json.FloatText

/-!
# Numbers in running text

Running text has numbers as digits with at most one point among them, and never an exponent. Such a
text is read here as the rational number it stands for. Main statements: a number with a fixed count
of places is read as a decimal that is at most half of the last place away from it; a number with
its shortest digits is read as a decimal that it is the nearest number to; and either text has
nothing but digits, a point and a sign, unless it names NaN or an infinity.
-/

namespace OnlineAggregation.Decimal

open Binary64
open Json (IsDigits digit? startsWithDigit wholeNumber padded)

/-! ## §1 Reading -/

instance (cs : List Char) : Decidable (IsDigits cs) :=
  inferInstanceAs (Decidable (∀ c ∈ cs, (digit? c).isSome = true))

/-- The number that digits stand for, with at most one point and then digits on both sides of it. -/
def unsignedValue? (cs : List Char) : Option ℚ :=
  match cs.splitOn '.' with
  | [whole] =>
    if IsDigits whole ∧ whole ≠ [] then some (wholeNumber 0 whole) else none
  | [whole, part] =>
    if (IsDigits whole ∧ whole ≠ []) ∧ IsDigits part ∧ part ≠ [] then
      some (wholeNumber 0 (whole ++ part) / 10 ^ part.length)
    else none
  | _ => none

/-- The number that a text stands for, perhaps with a sign before the digits. -/
def value? (text : String) : Option ℚ :=
  match text.toList with
  | '-' :: cs => (unsignedValue? cs).map (-·)
  | cs => unsignedValue? cs

section Reading

variable {cs whole part : List Char} {text : String}

theorem point_notMem (h : IsDigits cs) : '.' ∉ cs := by
  intro hpoint
  have hdigit := h '.' hpoint
  cases hdigit

theorem unsignedValue?_of_notMem (h : '.' ∉ cs) :
    unsignedValue? cs = if IsDigits cs ∧ cs ≠ [] then some (wholeNumber 0 cs : ℚ) else none := by
  have hsplit : cs.splitOn '.' = [cs] := by
    simpa using @List.splitOn_intercalate Char [cs] _ _ '.' (by simpa using h) (by simp)
  simp only [unsignedValue?, hsplit]

theorem unsignedValue?_digits (h : IsDigits cs) (hne : cs ≠ []) :
    unsignedValue? cs = some (wholeNumber 0 cs : ℚ) := by
  rw [unsignedValue?_of_notMem (point_notMem h)]
  exact if_pos ⟨h, hne⟩

theorem unsignedValue?_point (hwhole : IsDigits whole) (hne : whole ≠ []) (hpart : IsDigits part)
    (hne' : part ≠ []) :
    unsignedValue? (whole ++ '.' :: part) =
      some ((wholeNumber 0 (whole ++ part) : ℚ) / 10 ^ part.length) := by
  have hsplit : (whole ++ '.' :: part).splitOn '.' = [whole, part] := by
    simpa using @List.splitOn_intercalate Char [whole, part] _ _ '.'
      (by simpa using ⟨point_notMem hwhole, point_notMem hpart⟩) (by simp)
  unfold unsignedValue?
  simp only [hsplit]
  exact if_pos ⟨⟨hwhole, hne⟩, hpart, hne'⟩

/-- The sign in front of a text that starts with a digit is that of the number. -/
theorem value?_sign (negative : Bool) (h : startsWithDigit text.toList = true) :
    value? ((if negative then "-" else "") ++ text) =
      (unsignedValue? text.toList).map fun q => if negative then -q else q := by
  cases negative with
  | true => simp [value?, String.toList_append]
  | false =>
    -- Without a sign the first character is a digit, so that none is taken off.
    have hnosign : ∀ ds, text.toList ≠ '-' :: ds := by
      rintro ds hds
      rw [hds] at h
      cases h
    simp only [value?, String.toList_append]
    split
    · exact absurd (by simpa using ‹_›) (hnosign _)
    · simp

end Reading

/-! ## §2 Numerals -/

/-- `IsPlain n e cs`: the characters `cs` are those of `n · 10 ^ e` without an exponent. -/
inductive IsPlain (n : ℕ) : ℤ → List Char → Prop where
  /-- Zeros after the digits of `n` are the power of ten. -/
  | whole {k : ℕ} {ds : List Char} (hdigits : IsDigits ds) (hne : ds ≠ [])
      (hvalue : wholeNumber 0 ds = n * 10 ^ k) : IsPlain n k ds
  /-- Places after the point are the power of ten. -/
  | point {whole part : List Char} (hwhole : IsDigits whole) (hne : whole ≠ [])
      (hpart : IsDigits part) (hne' : part ≠ []) (hvalue : wholeNumber 0 (whole ++ part) = n) :
      IsPlain n (-part.length) (whole ++ '.' :: part)

/-- A decimal in running text. -/
def numeral (negative : Bool) (s : Scaled) : String :=
  (if negative then "-" else "") ++ Layout.message.plain (toString s.coefficient) s.exponent

section Numerals

variable {n : ℕ} {e : ℤ} {cs : List Char}

theorem startsWithDigit_append {ds : List Char} (h : IsDigits cs) (hne : cs ≠ []) :
    startsWithDigit (cs ++ ds) = true := by
  cases cs with
  | nil => exact absurd rfl hne
  | cons c cs => exact h c List.mem_cons_self

theorem IsPlain.startsWithDigit_eq (h : IsPlain n e cs) : startsWithDigit cs = true := by
  cases h with
  | whole hdigits hne => simpa using @startsWithDigit_append _ [] hdigits hne
  | point hwhole hne => exact startsWithDigit_append hwhole hne

theorem IsPlain.unsignedValue?_eq (h : IsPlain n e cs) :
    unsignedValue? cs = some ((n : ℚ) * 10 ^ e) := by
  cases h with
  | whole hdigits hne hvalue => simp [unsignedValue?_digits hdigits hne, hvalue]
  | point hwhole hne hpart hne' hvalue =>
    rw [unsignedValue?_point hwhole hne hpart hne', hvalue]
    simp [div_eq_mul_inv]

/-- The layout of running text is plain, with or without a point. -/
theorem isPlain_plain (n : ℕ) (e : ℤ) :
    IsPlain n e (Layout.message.plain (toString n) e).toList := by
  rcases le_or_gt 0 e with he | he
  · lift e to ℕ using he
    have htext : (Layout.message.plain (toString n) e).toList =
        Nat.toDigits 10 n ++ List.replicate e '0' := by
      simp [Layout.plain, Layout.message, zeros, String.toList_append]
    rw [htext]
    refine .whole ?_ (by simp) ?_
    · exact Json.isDigits_append.mpr ⟨Json.isDigits_toDigits n, Json.isDigits_replicate_zero e⟩
    · rw [Json.wholeNumber_append (Json.isDigits_toDigits n), Json.wholeNumber_toDigits,
        Json.wholeNumber_replicate_zero]
  · obtain ⟨k, rfl⟩ : ∃ k : ℕ, e = -k := ⟨(-e).toNat, by omega⟩
    have hk : 0 < k := by omega
    -- The digits are padded, so that one of them at least stands before the point.
    obtain ⟨hwhole, hne, -⟩ := @Json.isInteger_take_padded n k hk
    obtain ⟨hpart, hlength⟩ := @Json.drop_padded n k
    set cut := (padded n k).length - k
    have hne' : (padded n k).drop cut ≠ [] := List.ne_nil_of_length_pos (by omega)
    have hform : IsPlain n (-((padded n k).drop cut).length)
        ((padded n k).take cut ++ '.' :: (padded n k).drop cut) := by
      refine .point hwhole hne hpart hne' ?_
      rw [List.take_append_drop, Json.wholeNumber_padded]
    rw [hlength] at hform
    have htext : (Layout.message.plain (toString n) (-k)).toList =
        (padded n k).take cut ++ '.' :: (padded n k).drop cut := by
      rw [Layout.plain, if_neg (by omega), neg_neg, Int.toNat_natCast, Json.toList_withPoint]
    rwa [htext]

/-- **A numeral is read as the decimal** that was written. -/
theorem value?_numeral (negative : Bool) (s : Scaled) :
    value? (numeral negative s) =
      some (if negative then -((s.coefficient : ℚ) * 10 ^ s.exponent)
        else s.coefficient * 10 ^ s.exponent) := by
  have hplain := isPlain_plain s.coefficient s.exponent
  rw [numeral, value?_sign negative hplain.startsWithDigit_eq, hplain.unsignedValue?_eq]
  rfl

end Numerals

/-! ## §3 The texts of a number -/

section Texts

variable {x : Float} {negative : Bool} {v : Magnitude}

/-- How many units of the last place a number with a fixed count of places is. -/
def Magnitude.units (v : Magnitude) (places : ℕ) : ℕ :=
  roundDiv .toEven (v.quotient.1 * 10 ^ places) v.quotient.2

theorem Magnitude.quotient_pos (v : Magnitude) : 0 < v.quotient.2 :=
  Nat.pow_pos (by norm_num)

theorem Magnitude.quotient_eq_value (v : Magnitude) :
    (v.quotient.1 : ℝ) / v.quotient.2 = v.value := by
  rw [value_eq, zpow_eq_div two_ne_zero]
  simp [quotient, mul_div_assoc]

/-- Rounding to places moves a number by half of the last place at most. -/
theorem Magnitude.abs_units_sub_le (v : Magnitude) (places : ℕ) :
    |(v.units places : ℝ) * 10 ^ (-places : ℤ) - v.value| ≤ 1 / (2 * 10 ^ places : ℕ) := by
  obtain ⟨hbelow, habove⟩ :=
    roundDiv_within_half .toEven (v.quotient.1 * 10 ^ places) v.quotient_pos
  change 2 * (v.units places * v.quotient.2) ≤ _ at hbelow
  change _ ≤ 2 * (v.units places * v.quotient.2) + v.quotient.2 at habove
  have hden : (0 : ℝ) < v.quotient.2 := by exact_mod_cast v.quotient_pos
  have hten : (0 : ℝ) < 10 ^ places := by positivity
  have hbelow' : 2 * ((v.units places : ℝ) * v.quotient.2) ≤
      2 * (v.quotient.1 * 10 ^ places) + v.quotient.2 := by exact_mod_cast hbelow
  have habove' : 2 * ((v.quotient.1 : ℝ) * 10 ^ places) ≤
      2 * (v.units places * v.quotient.2) + v.quotient.2 := by exact_mod_cast habove
  -- Over the common denominator both are whole numbers, and the rounding has compared them.
  have hscaled : (v.units places : ℝ) * 10 ^ (-places : ℤ) - v.value =
      (v.units places * v.quotient.2 - v.quotient.1 * 10 ^ places) /
        (10 ^ places * v.quotient.2) := by
    rw [← v.quotient_eq_value, zpow_neg, zpow_natCast]
    field_simp
  have hhalf : (1 : ℝ) / (2 * 10 ^ places : ℕ) =
      (v.quotient.2 / 2) / (10 ^ places * v.quotient.2) := by
    push_cast
    field_simp
  rw [hscaled, hhalf, abs_div, abs_of_pos (mul_pos hten hden)]
  gcongr
  rw [abs_le]
  constructor <;> linarith

theorem fixed_of_finite (hx : Binary.ofFloat x = .finite negative v) (places : ℕ) :
    fixed places x = numeral negative ⟨v.units places, -places⟩ := by
  rw [fixed, hx]
  simp only [numeral, Layout.plain, Magnitude.units]
  rcases Nat.eq_zero_or_pos places with rfl | hplaces
  · simp [zeros, Layout.message]
  · simp [hplaces.ne']

theorem write_message_of_finite (hx : Binary.ofFloat x = .finite negative v) :
    Layout.message.write x = numeral negative (shortest v .upward) := by
  rw [Layout.write, hx]
  rfl

/-- What is no finite number is named. -/
theorem text_of_not_isFinite (hx : x.isFinite = false) (places : ℕ) :
    fixed places x = Layout.message.write x ∧
      Layout.message.write x ∈ ["NaN", "inf", "-inf"] := by
  rw [fixed, Layout.write]
  rcases Binary.ofFloat_of_not_isFinite hx with h | ⟨negative, h⟩
  · simp [h, Layout.message]
  · cases negative <;> simp [h, Layout.message, infinityText]

/-- A name is no decimal. -/
theorem value?_name : ∀ name ∈ ["NaN", "inf", "-inf"], value? name = none := by
  simp [value?, unsignedValue?_of_notMem, digit?]

/-- The text of a finite number is read as a decimal that is at most half of the last place away from
it, and any other text as none. -/
structure ReadsWithinHalf (places : ℕ) (text : String) (x : Float) : Prop where
  near : ∀ r : ℝ, Reads x r →
    ∃ q : ℚ, value? text = some q ∧ |(q : ℝ) - r| ≤ 1 / (2 * 10 ^ places : ℕ)
  none_of_not_isFinite : x.isFinite = false → value? text = none

/-- The text of a finite number is read as a decimal that it is the nearest number to, and any other
text as none. -/
structure ReadsNearest (text : String) (x : Float) : Prop where
  nearest : ∀ r : ℝ, Reads x r → ∃ q : ℚ, value? text = some q ∧ rounded (q : ℝ) = r
  none_of_not_isFinite : x.isFinite = false → value? text = none

/-- **Fixed places are near** the number. -/
theorem readsWithinHalf_fixed (places : ℕ) (x : Float) :
    ReadsWithinHalf places (fixed places x) x where
  near := by
    intro r hx
    obtain ⟨negative, v, hv, -, rfl⟩ := Binary.ofFloat_of_reads hx
    have hnear := v.abs_units_sub_le places
    refine ⟨_, by rw [fixed_of_finite hv, value?_numeral], ?_⟩
    cases negative with
    | false => simpa using hnear
    | true =>
      -- Number and decimal have changed sides of the origin together.
      rw [abs_sub_comm] at hnear
      simpa [neg_add_eq_sub] using hnear
  none_of_not_isFinite := by
    intro hx
    obtain ⟨hsame, hname⟩ := text_of_not_isFinite hx places
    exact value?_name _ (hsame ▸ hname)

/-- A carry goes through all the places, and the sign of what is rounded to zero stays. -/
example : fixed 12 0.9999999999996 = "1.000000000000" ∧ fixed 12 (-1e-13) = "-0.000000000000" := by
  decide +kernel

/-- **Shortest digits read back**. -/
theorem readsNearest_write (x : Float) : ReadsNearest (Layout.message.write x) x where
  nearest := by
    intro r hx
    obtain ⟨negative, v, hv, hcanonical, rfl⟩ := Binary.ofFloat_of_reads hx
    have hback := rounded_shortest hcanonical .upward
    refine ⟨_, by rw [write_message_of_finite hv, value?_numeral], ?_⟩
    cases negative <;> simp [hback]
  none_of_not_isFinite := fun hx => value?_name _ (text_of_not_isFinite hx 0).2

/-! ## §4 The characters of a number -/

/-- Digits, a point, a sign, and the letters of the names of what is not finite. -/
def isNumberChar (c : Char) : Bool :=
  (digit? c).isSome || "-.NaNinf".toList.contains c

/-- Whether a text could be that of a number. -/
def HasNumberChars (text : String) : Prop :=
  ∀ c ∈ text.toList, isNumberChar c = true

theorem isNumberChar_of_isDigits {cs : List Char} (h : IsDigits cs) :
    ∀ c ∈ cs, isNumberChar c = true := by
  intro c hc
  simp [isNumberChar, h c hc]

theorem IsPlain.isNumberChar_of_mem {n : ℕ} {e : ℤ} {cs : List Char} (h : IsPlain n e cs) :
    ∀ c ∈ cs, isNumberChar c = true := by
  cases h with
  | whole hdigits => exact isNumberChar_of_isDigits hdigits
  | point hwhole hne hpart =>
    simp only [List.forall_mem_append, List.forall_mem_cons]
    exact ⟨isNumberChar_of_isDigits hwhole, rfl, isNumberChar_of_isDigits hpart⟩

theorem hasNumberChars_toString (n : ℕ) : HasNumberChars (toString n) := by
  rw [HasNumberChars, Json.toList_toString]
  exact isNumberChar_of_isDigits (Json.isDigits_toDigits n)

theorem hasNumberChars_numeral (negative : Bool) (s : Scaled) :
    HasNumberChars (numeral negative s) := by
  have hsign : ∀ c ∈ (if negative then "-" else "").toList, isNumberChar c = true := by
    cases negative <;> simp [isNumberChar]
  have hplain := (isPlain_plain s.coefficient s.exponent).isNumberChar_of_mem
  intro c hc
  simp only [numeral, String.toList_append, List.mem_append] at hc
  exact hc.elim (hsign c) (hplain c)

/-- **Both texts of any number** have number characters only. -/
theorem hasNumberChars_text (x : Float) (places : ℕ) :
    HasNumberChars (fixed places x) ∧ HasNumberChars (Layout.message.write x) := by
  cases hx : x.isFinite with
  | true =>
    obtain ⟨negative, v, hv, -⟩ := Binary.ofFloat_of_isFinite hx
    rw [fixed_of_finite hv, write_message_of_finite hv]
    exact ⟨hasNumberChars_numeral _ _, hasNumberChars_numeral _ _⟩
  | false =>
    obtain ⟨hsame, hname⟩ := text_of_not_isFinite hx places
    have hnames : ∀ name ∈ ["NaN", "inf", "-inf"], HasNumberChars name := by
      simp [HasNumberChars, isNumberChar]
    exact ⟨hsame ▸ hnames _ hname, hnames _ hname⟩

end Texts

end OnlineAggregation.Decimal
