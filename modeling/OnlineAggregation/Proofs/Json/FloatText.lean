import OnlineAggregation.Json.Printer
import OnlineAggregation.Proofs.Decimal.Shortest
import OnlineAggregation.Proofs.Json.Literal

/-!
# Reading the text of a number

The writer chooses between a plain and a scientific layout by the exponent of the leading digit.
Main statements: either layout is a literal, and the reader finds the digits of the shortest decimal
and its power of ten in it again.
-/

namespace OnlineAggregation.Json

open Decimal
open Numeric (wordSize)

/-! ## §1 Digits with a point -/

section Layouts

variable {negative : Bool} {ep rest : List Char} {n places : ℕ}

theorem toList_toString (n : ℕ) : (toString n).toList = Nat.toDigits 10 n :=
  Nat.toList_repr

private theorem length_toDigits_pos (n : ℕ) : 0 < (Nat.toDigits 10 n).length :=
  List.length_pos_of_ne_nil Nat.toDigits_ne_nil

private theorem length_toString (n : ℕ) : (toString n).length = (Nat.toDigits 10 n).length := by
  rw [← toList_toString]
  rfl

/-- The digits of `n`, after enough zeros to have one more than the places. -/
def padded (n places : ℕ) : List Char :=
  List.replicate (places + 1 - (Nat.toDigits 10 n).length) '0' ++ Nat.toDigits 10 n

theorem length_padded (n places : ℕ) :
    (padded n places).length = max (places + 1) (Nat.toDigits 10 n).length := by
  rw [padded, List.length_append, List.length_replicate]
  omega

theorem isDigits_padded : IsDigits (padded n places) :=
  isDigits_append.mpr ⟨isDigits_replicate_zero _, isDigits_toDigits n⟩

theorem wholeNumber_padded : wholeNumber 0 (padded n places) = n := by
  rw [padded, wholeNumber_append (isDigits_replicate_zero _), wholeNumber_replicate_zero, zero_mul,
    wholeNumber_toDigits]

theorem toList_withPoint : (withPoint (toString n) places).toList =
    (padded n places).take ((padded n places).length - places) ++
      '.' :: (padded n places).drop ((padded n places).length - places) := by
  rw [padded, ← toList_toString]
  generalize toString n = digits
  simp [withPoint, zeros, String.toList_append, String.length_toList]

/-- What stands before the point is a number without leading zeros. -/
theorem isInteger_take_padded (hplaces : 0 < places) :
    IsInteger ((padded n places).take ((padded n places).length - places)) := by
  have hlength := length_padded n places
  refine ⟨fun c hc => isDigits_padded c (List.mem_of_mem_take hc), ?_, ?_⟩
  · intro hnil
    have htake : ((padded n places).take ((padded n places).length - places)).length =
        (padded n places).length - places := List.length_take_of_le (by omega)
    rw [hnil, List.length_nil] at htake
    omega
  · intro hzero
    by_cases hpad : places + 1 - (Nat.toDigits 10 n).length = 0
    · -- Without padding there are several digits, and the first of them is not zero.
      exfalso
      have hunpadded : padded n places = Nat.toDigits 10 n := by
        rw [padded, hpad, List.replicate_zero, List.nil_append]
      rw [List.head?_take, if_neg (by omega), hunpadded] at hzero
      have htail := congrArg List.length ((isInteger_toDigits n).leading hzero)
      rw [List.length_tail, List.length_nil] at htail
      omega
    · -- With padding one digit stands before the point.
      have hone : (padded n places).length - places = 1 := by omega
      rw [hone]
      cases padded n places <;> rfl

/-- What stands after the point are the places. -/
theorem drop_padded :
    IsDigits ((padded n places).drop ((padded n places).length - places)) ∧
      ((padded n places).drop ((padded n places).length - places)).length = places := by
  refine ⟨fun c hc => isDigits_padded c (List.mem_of_mem_drop hc), ?_⟩
  rw [List.length_drop]
  have hpadded := length_padded n places
  omega

theorem isLiteral_withPoint (hplaces : 0 < places) (hep : IsExponent ep) :
    IsLiteral ((withPoint (toString n) places).toList ++ ep) := by
  obtain ⟨hdigits, hlength⟩ := @drop_padded n places
  rw [toList_withPoint, List.append_assoc]
  exact .parts (isInteger_take_padded hplaces)
    (.point hdigits (List.ne_nil_of_length_pos (by omega))) hep

/-- A point among the digits lowers the power of ten by the places after it. -/
theorem readNumber_withPoint (hn : n < wordSize) (hplaces : 0 < places)
    (hend : startsWithDigit rest = false) :
    readNumber negative ((withPoint (toString n) places).toList ++ rest) =
      readTail negative n (-(places : ℤ)) rest := by
  obtain ⟨hdigits, hlength⟩ := @drop_padded n places
  set cut := (padded n places).length - places with hcut
  have hsplit : (padded n places).take cut ++ (padded n places).drop cut = padded n places :=
    List.take_append_drop _ _
  rw [toList_withPoint, List.append_assoc, List.cons_append,
    readNumber_fraction (isInteger_take_padded hplaces) hdigits
      (List.ne_nil_of_length_pos (by omega)) (by rwa [hsplit, wholeNumber_padded]) hend,
    hsplit, wholeNumber_padded, hlength]

end Layouts

/-! ## §2 The layouts -/

/-- The exponent of the leading digit. -/
def leadingExponent (s : Scaled) : ℤ :=
  s.exponent + Int.ofNat (toString s.coefficient).length - 1

/-- The text of a decimal without a sign. -/
def unsigned (s : Scaled) : String :=
  if Layout.json.isPositional (leadingExponent s) then
    Layout.json.plain (toString s.coefficient) s.exponent
  else
    Layout.json.scientific (toString s.coefficient) (leadingExponent s)

theorem write_of_finite {x : Float} {negative : Bool} {size : Magnitude}
    (hx : Binary.ofFloat x = .finite negative size) :
    Layout.json.write x = (if negative then "-" else "") ++ unsigned (shortest size .toEven) := by
  rw [Layout.write, hx]
  rfl

/-- The decimal that a reader takes from the text: the zero after the point of a whole number is
one more digit. -/
def asRead (s : Scaled) : Scaled :=
  if Layout.json.isPositional (leadingExponent s) = true ∧ 0 ≤ s.exponent then
    ⟨s.coefficient * 10 ^ (s.exponent.toNat + 1), -1⟩
  else s

section Layouts

variable {negative : Bool} {rest : List Char} {s : Scaled} {v : Magnitude}

/-- The digits of a whole number that is written without an exponent, with the zero after the point,
are seventeen at most. -/
theorem coefficient_whole_lt (hexponent : 0 ≤ s.exponent) (hleading : leadingExponent s ≤ 15) :
    s.coefficient * 10 ^ (s.exponent.toNat + 1) < 10 ^ 17 := by
  have hlength := length_toDigits_pos s.coefficient
  rw [leadingExponent, length_toString] at hleading
  have hcast : Int.ofNat (Nat.toDigits 10 s.coefficient).length =
    (Nat.toDigits 10 s.coefficient).length := rfl
  have hbound : s.coefficient < 10 ^ (Nat.toDigits 10 s.coefficient).length :=
    (Nat.length_toDigits_le_iff (by norm_num) hlength).mp le_rfl
  calc s.coefficient * 10 ^ (s.exponent.toNat + 1)
      < 10 ^ (Nat.toDigits 10 s.coefficient).length * 10 ^ (s.exponent.toNat + 1) :=
        Nat.mul_lt_mul_of_pos_right hbound (by positivity)
    _ = 10 ^ ((Nat.toDigits 10 s.coefficient).length + (s.exponent.toNat + 1)) :=
        (pow_add _ _ _).symm
    _ ≤ 10 ^ 17 := Nat.pow_le_pow_right (by norm_num) (by omega)

private theorem leadingExponent_le (h : Layout.json.isPositional (leadingExponent s) = true) :
    leadingExponent s ≤ 15 := by
  have hrange : (decide (-5 ≤ leadingExponent s) && decide (leadingExponent s ≤ 15)) = true := h
  rw [Bool.and_eq_true, decide_eq_true_iff, decide_eq_true_iff] at hrange
  exact hrange.2

/-- What the reader takes up is small enough for its arithmetic. -/
theorem coefficient_asRead_lt (hs : s.Fits v) : (asRead s).coefficient < 2 ^ 63 := by
  rw [asRead]
  split
  · rename_i hwhole
    exact (coefficient_whole_lt hwhole.2 (leadingExponent_le hwhole.1)).trans (by norm_num)
  · exact hs.coefficient_lt

theorem least_le_asRead (hs : s.Fits v) : -342 ≤ (asRead s).exponent := by
  rw [asRead]
  split
  · norm_num
  · exact hs.least_le

/-- The zero after the point does not change the value. -/
theorem value_asRead (s : Scaled) :
    ((asRead s).coefficient : ℝ) * 10 ^ (asRead s).exponent = s.coefficient * 10 ^ s.exponent := by
  rw [asRead]
  split
  · rename_i hwhole
    have hexponent : s.exponent = (s.exponent.toNat + 1 : ℕ) + (-1) := by
      push_cast
      omega
    conv_rhs => rw [hexponent, zpow_add₀ (by norm_num), zpow_natCast, ← mul_assoc]
    push_cast
    rfl
  · rfl

/-- The digits of a whole number, with zeros for its power of ten. -/
private theorem isInteger_whole (hs : s.Fits v) :
    IsInteger (Nat.toDigits 10 s.coefficient ++ List.replicate s.exponent.toNat '0') := by
  obtain ⟨hdigits, hne, hfirst⟩ := isInteger_toDigits s.coefficient
  refine ⟨isDigits_append.mpr ⟨hdigits, isDigits_replicate_zero _⟩, by simp [hne], ?_⟩
  intro hzero
  -- A first digit of zero is the number zero, which is written without further zeros.
  rw [List.head?_append_of_ne_nil _ hne] at hzero
  have hcoefficient : s.coefficient = 0 := not_not.mp fun hn => head?_toDigits_ne hn hzero
  have hexponent_zero : s.exponent.toNat = 0 := by
    have hle := hs.zero_exponent hcoefficient
    omega
  rw [hexponent_zero, List.replicate_zero, List.append_nil]
  exact hfirst hzero

private theorem toList_whole (hexponent : 0 ≤ s.exponent) :
    (Layout.json.plain (toString s.coefficient) s.exponent).toList =
      (Nat.toDigits 10 s.coefficient ++ List.replicate s.exponent.toNat '0') ++ ['.', '0'] := by
  rw [Layout.plain, if_pos hexponent]
  simp [zeros, Layout.json, String.toList_append]

private theorem readNumber_whole (hs : s.Fits v) (hexponent : 0 ≤ s.exponent)
    (hleading : leadingExponent s ≤ 15) (hend : Ends rest) :
    readNumber negative ((Layout.json.plain (toString s.coefficient) s.exponent).toList ++ rest) =
      readTail negative (s.coefficient * 10 ^ (s.exponent.toNat + 1)) (-1) rest := by
  have hip := isInteger_whole hs
  have hvalue : wholeNumber 0 ((Nat.toDigits 10 s.coefficient ++
      List.replicate s.exponent.toNat '0') ++ ['0']) =
      s.coefficient * 10 ^ (s.exponent.toNat + 1) := by
    rw [wholeNumber_append hip.digits, wholeNumber_append (isDigits_toDigits _),
      wholeNumber_toDigits, wholeNumber_replicate_zero, pow_succ]
    have hzero : ∀ n, wholeNumber n ['0'] = n * 10 := fun n => rfl
    rw [hzero, Nat.mul_assoc]
  have hsmall : s.coefficient * 10 ^ (s.exponent.toNat + 1) < wordSize :=
    (coefficient_whole_lt hexponent hleading).trans (by decide)
  have hfraction : IsDigits ['0'] := isDigits_replicate_zero 1
  rw [toList_whole hexponent, List.append_assoc,
    show ['.', '0'] ++ rest = '.' :: (['0'] ++ rest) from rfl,
    readNumber_fraction hip hfraction (by simp) (hvalue.trans_lt hsmall) hend.startsWithDigit_eq,
    hvalue]
  rfl

private theorem toList_toString_int (e : ℤ) :
    (toString e).toList = (if 0 ≤ e then [] else ['-']) ++ Nat.toDigits 10 e.natAbs := by
  cases e with
  | ofNat n => simp [Int.toString_eq_repr, Int.repr]
  | negSucc n => simp [Int.toString_eq_repr, Int.repr, Int.negSucc_not_nonneg]

/-- The exponent of the scientific layout. -/
private def exponentText (leading : ℤ) : List Char :=
  'e' :: ((if 0 ≤ leading then ['+'] else ['-']) ++ Nat.toDigits 10 leading.natAbs)

private theorem isExponent_exponentText (leading : ℤ) : IsExponent (exponentText leading) := by
  refine .mark (Or.inl rfl) ?_ (isDigits_toDigits _) Nat.toDigits_ne_nil
  split
  · exact Or.inr (Or.inl rfl)
  · exact Or.inr (Or.inr rfl)

private theorem toList_scientific :
    (Layout.json.scientific (toString s.coefficient) (leadingExponent s)).toList =
      (if (Nat.toDigits 10 s.coefficient).length = 1 then toString s.coefficient
        else withPoint (toString s.coefficient)
          ((Nat.toDigits 10 s.coefficient).length - 1)).toList ++
        exponentText (leadingExponent s) := by
  rw [Layout.scientific, exponentText, String.toList_append, String.toList_append,
    toList_toString_int, length_toString, List.append_assoc]
  congr 1
  split <;> simp [Layout.json]

/-- A sign and digits are read as an exponent. -/
private theorem readTail_exponentText {significand : ℕ} {e : ℤ} {leading : ℤ}
    (hleading : leading.natAbs ≤ greatestExponent) (hend : Ends rest) :
    readTail negative significand e (exponentText leading ++ rest) =
      (decimalValue negative significand (e + leading)).map fun x => (.float x, rest) := by
  have hdigits := isDigits_toDigits leading.natAbs
  have hne : Nat.toDigits 10 leading.natAbs ≠ [] := Nat.toDigits_ne_nil
  have hvalue := wholeNumber_toDigits leading.natAbs
  rw [exponentText, List.cons_append, List.append_assoc]
  split
  · rename_i hsign
    have hplus : exponentSign (['+'] ++ (Nat.toDigits 10 leading.natAbs ++ rest)) =
        (false, Nat.toDigits 10 leading.natAbs ++ rest) := rfl
    rw [readTail_exponent hdigits hne hplus hend (by rwa [hvalue]), hvalue,
      if_neg Bool.false_ne_true, Int.natAbs_of_nonneg hsign]
  · rename_i hsign
    have hminus : exponentSign (['-'] ++ (Nat.toDigits 10 leading.natAbs ++ rest)) =
        (true, Nat.toDigits 10 leading.natAbs ++ rest) := rfl
    rw [readTail_exponent hdigits hne hminus hend (by rwa [hvalue]), hvalue, if_pos rfl,
      show e - (leading.natAbs : ℤ) = e + leading by omega]

private theorem readNumber_scientific (hs : s.Fits v) (hend : Ends rest) :
    readNumber negative
        ((Layout.json.scientific (toString s.coefficient) (leadingExponent s)).toList ++ rest) =
      (decimalValue negative s.coefficient s.exponent).map fun x => (.float x, rest) := by
  have hlength := length_toDigits_pos s.coefficient
  have hword : s.coefficient < wordSize := hs.coefficient_lt.trans (by decide)
  have hlength' : (Nat.toDigits 10 s.coefficient).length ≤ 19 :=
    (Nat.length_toDigits_le_iff (by norm_num) (by norm_num)).mpr
      (hs.coefficient_lt.trans (by norm_num))
  have hleading : leadingExponent s =
      s.exponent + ((Nat.toDigits 10 s.coefficient).length : ℤ) - 1 := by
    rw [leadingExponent, length_toString]
    rfl
  have hsmall : (leadingExponent s).natAbs ≤ greatestExponent := by
    have hleast := hs.least_le
    have hgreatest := hs.le_greatest
    have hgreat : greatestExponent = 2 ^ 31 - 1 := rfl
    omega
  rw [toList_scientific, List.append_assoc]
  split
  · -- A single digit has no point.
    rename_i hone
    have hexponent : readNumber negative
        (Nat.toDigits 10 s.coefficient ++ (exponentText (leadingExponent s) ++ rest)) =
        readTail negative s.coefficient 0 (exponentText (leadingExponent s) ++ rest) := by
      rw [exponentText, List.cons_append, readNumber_exponent (Or.inl rfl) (isInteger_toDigits _)
        (by rwa [wholeNumber_toDigits]), wholeNumber_toDigits]
    rw [toList_toString, hexponent, readTail_exponentText hsmall hend, hleading, hone,
      show (0 : ℤ) + (s.exponent + ((1 : ℕ) : ℤ) - 1) = s.exponent by push_cast; ring]
  · rename_i hseveral
    rw [readNumber_withPoint hword (by omega) rfl, readTail_exponentText hsmall hend]
    congr 2
    omega

/-- **Written digits are a literal.** -/
theorem isLiteral_unsigned (hs : s.Fits v) : IsLiteral (unsigned s).toList := by
  rw [unsigned]
  split
  · by_cases hexponent : 0 ≤ s.exponent
    · rw [toList_whole hexponent]
      have hfraction : IsFraction ['.', '0'] :=
        .point (isDigits_replicate_zero 1) (List.cons_ne_nil _ _)
      exact @IsLiteral.parts _ _ [] (isInteger_whole hs) hfraction .none
    · rw [Layout.plain, if_neg hexponent, ← List.append_nil (String.toList _)]
      exact isLiteral_withPoint (by omega) .none
  · rw [toList_scientific]
    have hep := isExponent_exponentText (leadingExponent s)
    split
    · rw [toList_toString]
      exact @IsLiteral.parts _ [] _ (isInteger_toDigits _) .none hep
    · have hlength := length_toDigits_pos s.coefficient
      exact isLiteral_withPoint (by omega) hep

/-- **Reading the digits back**: the reader takes up the decimal that was written. -/
theorem readNumber_unsigned (hs : s.Fits v) (hend : Ends rest) :
    readNumber negative ((unsigned s).toList ++ rest) =
      (decimalValue negative (asRead s).coefficient (asRead s).exponent).map
        fun x => (.float x, rest) := by
  rw [unsigned, asRead]
  by_cases hpositional : Layout.json.isPositional (leadingExponent s) = true
  · have hrange := leadingExponent_le hpositional
    rw [if_pos hpositional]
    by_cases hexponent : 0 ≤ s.exponent
    · rw [if_pos ⟨hpositional, hexponent⟩, readNumber_whole hs hexponent hrange hend,
        readTail_of_end hend]
    · rw [if_neg fun h => hexponent h.2, Layout.plain, if_neg hexponent,
        readNumber_withPoint (hs.coefficient_lt.trans (by decide)) (by omega)
          hend.startsWithDigit_eq, readTail_of_end hend,
        show -((-s.exponent).toNat : ℤ) = s.exponent by omega]
  · rw [if_neg hpositional, if_neg fun h => hpositional h.1, readNumber_scientific hs hend]

end Layouts

end OnlineAggregation.Json
