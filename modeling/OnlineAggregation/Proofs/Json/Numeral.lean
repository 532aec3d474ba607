import OnlineAggregation.Json.Numeral
import Mathlib

/-!
# Reading decimal numerals

Digits in a row are taken one by one, as long as they fit in a word. Main statements: each part of a
numeral is read up to its last digit, and what follows is left; a numeral whose digits together fit
in a word is read as these digits, with the fraction and the exponent as a power of ten; and the
text of a whole number is read as that number.
-/

namespace OnlineAggregation.Json

open Numeric (wordSize)

/-! ## §1 Runs of digits -/

/-- A text of digits only. -/
def IsDigits (cs : List Char) : Prop :=
  ∀ c ∈ cs, (digit? c).isSome = true

section Runs

variable {cs ds rest : List Char} {c : Char} {s : ℕ}

@[simp] theorem isDigits_nil : IsDigits [] :=
  List.forall_mem_nil _

@[simp] theorem isDigits_cons : IsDigits (c :: cs) ↔ (digit? c).isSome = true ∧ IsDigits cs :=
  List.forall_mem_cons

@[simp] theorem isDigits_append : IsDigits (cs ++ ds) ↔ IsDigits cs ∧ IsDigits ds :=
  List.forall_mem_append

theorem isDigits_replicate_zero (n : ℕ) : IsDigits (List.replicate n '0') := by
  intro c hc
  rw [List.eq_of_mem_replicate hc]
  rfl

theorem wholeNumber_append (h : IsDigits cs) :
    wholeNumber s (cs ++ ds) = wholeNumber (wholeNumber s cs) ds := by
  induction cs generalizing s with
  | nil => rfl
  | cons c cs ih =>
    obtain ⟨hc, hcs⟩ := isDigits_cons.mp h
    obtain ⟨d, hd⟩ := Option.isSome_iff_exists.mp hc
    simp only [List.cons_append, wholeNumber, hd]
    exact ih hcs

theorem wholeNumber_of_end (h : startsWithDigit rest = false) : wholeNumber s rest = s := by
  cases rest with
  | nil => rfl
  | cons c cs =>
    have hc : digit? c = none := by simpa [startsWithDigit] using h
    simp only [wholeNumber, hc]

theorem le_wholeNumber : s ≤ wholeNumber s cs := by
  induction cs generalizing s with
  | nil => exact le_rfl
  | cons c cs ih =>
    rw [wholeNumber]
    split
    · exact (Nat.le_add_right_of_le (Nat.le_mul_of_pos_right s (by norm_num))).trans ih
    · exact le_rfl

theorem wholeNumber_replicate_zero (n : ℕ) :
    wholeNumber s (List.replicate n '0') = s * 10 ^ n := by
  induction n generalizing s with
  | zero => simp [wholeNumber]
  | succ n ih =>
    have hzero : digit? '0' = some 0 := rfl
    rw [List.replicate_succ, wholeNumber, hzero]
    simp only
    rw [ih, pow_succ]
    ring

/-- Digits that are not taken are left in front of what follows. -/
theorem takeDigits_append (h : IsDigits cs) (hend : startsWithDigit rest = false) :
    takeDigits s (cs ++ rest) =
      { takeDigits s cs with rest := (takeDigits s cs).rest ++ rest } := by
  induction cs generalizing s with
  | nil =>
    cases rest with
    | nil => rfl
    | cons c cs =>
      have hc : digit? c = none := by simpa [startsWithDigit] using hend
      simp only [List.nil_append, takeDigits, hc]
  | cons c cs ih =>
    obtain ⟨hc, hcs⟩ := isDigits_cons.mp h
    obtain ⟨d, hd⟩ := Option.isSome_iff_exists.mp hc
    simp only [List.cons_append, takeDigits, hd]
    split
    · rw [ih hcs]
    · rfl

theorem isDigits_rest_takeDigits (h : IsDigits cs) : IsDigits (takeDigits s cs).rest := by
  induction cs generalizing s with
  | nil => exact isDigits_nil
  | cons c cs ih =>
    obtain ⟨hc, hcs⟩ := isDigits_cons.mp h
    obtain ⟨d, hd⟩ := Option.isSome_iff_exists.mp hc
    simp only [takeDigits, hd]
    split
    · exact ih hcs
    · exact h

/-- Every digit is either taken or left. -/
theorem count_add_length_takeDigits :
    (takeDigits s cs).count + (takeDigits s cs).rest.length = cs.length := by
  induction cs generalizing s with
  | nil => rfl
  | cons c cs ih =>
    simp only [takeDigits]
    split
    · exact Nat.zero_add _
    · split
      · rw [List.length_cons, ← ih, Nat.add_right_comm]
      · exact Nat.zero_add _

/-- If all digits together fit in a word, all of them are taken. -/
theorem takeDigits_of_fits (h : IsDigits cs) (hfits : wholeNumber s cs < wordSize) :
    takeDigits s cs = ⟨wholeNumber s cs, cs.length, []⟩ := by
  induction cs generalizing s with
  | nil => rfl
  | cons c cs ih =>
    obtain ⟨hc, hcs⟩ := isDigits_cons.mp h
    obtain ⟨d, hd⟩ := Option.isSome_iff_exists.mp hc
    simp only [wholeNumber, hd] at hfits ⊢
    simp only [takeDigits, hd]
    rw [if_pos (le_wholeNumber.trans_lt hfits), ih hcs hfits]
    rfl

theorem dropDigits_append (h : IsDigits cs) (hend : startsWithDigit rest = false) :
    dropDigits (cs ++ rest) = rest := by
  rw [dropDigits, List.dropWhile_append_of_pos h]
  cases rest with
  | nil => rfl
  | cons c cs =>
    have hc : (digit? c).isSome = false := hend
    rw [List.dropWhile_cons, hc]
    rfl

theorem digitCount_append (h : IsDigits cs) (hend : startsWithDigit rest = false) :
    digitCount (cs ++ rest) = cs.length := by
  have hzero : rest.takeWhile (fun c => (digit? c).isSome) = [] := by
    cases rest with
    | nil => rfl
    | cons c cs => exact List.takeWhile_cons_of_neg (by simpa [startsWithDigit] using hend)
  rw [digitCount, List.takeWhile_append_of_pos h, hzero, List.append_nil]

end Runs

/-! ## §2 Whole numbers -/

section Naturals

theorem digit?_of_isDigit {c : Char} (h : c.isDigit = true) :
    digit? c = some (c.toNat - '0'.toNat) := by
  rw [Char.isDigit, Bool.and_eq_true, decide_eq_true_iff, decide_eq_true_iff] at h
  exact if_pos h

theorem isDigits_toDigits (n : ℕ) : IsDigits (Nat.toDigits 10 n) := by
  intro c hc
  rw [digit?_of_isDigit (Nat.isDigit_of_mem_toDigits (by norm_num) (by norm_num) hc)]
  rfl

/-- The digits of a number are read as the number. -/
theorem wholeNumber_toDigits (n : ℕ) : wholeNumber 0 (Nat.toDigits 10 n) = n := by
  have hfold : ∀ (cs : List Char) (s : ℕ), (∀ c ∈ cs, c.isDigit = true) →
      wholeNumber s cs = Nat.ofDigitChars 10 cs s := by
    intro cs
    induction cs with
    | nil => exact fun s _ => rfl
    | cons c cs ih =>
      intro s hcs
      obtain ⟨hc, hcs⟩ := List.forall_mem_cons.mp hcs
      rw [wholeNumber, digit?_of_isDigit hc, Nat.ofDigitChars_cons, Nat.mul_comm]
      exact ih _ hcs
  rw [hfold _ _ fun c hc => Nat.isDigit_of_mem_toDigits (by norm_num) (by norm_num) hc,
    Nat.ofDigitChars_ten_toDigits]

/-- Digits before a point: at least one, and no zero before another digit. -/
structure IsInteger (cs : List Char) : Prop where
  digits : IsDigits cs
  ne_nil : cs ≠ []
  leading : cs.head? = some '0' → cs.tail = []

/-- Only the digits of zero start with a zero. -/
theorem head?_toDigits_ne {n : ℕ} (hn : n ≠ 0) : (Nat.toDigits 10 n).head? ≠ some '0' := by
  induction n using Nat.strong_induction_on with
  | h n ih =>
    rcases Nat.lt_or_ge n 10 with hsmall | hlarge
    · rw [Nat.toDigits_of_lt_base hsmall]
      interval_cases n <;> simp_all [Nat.digitChar]
    · -- The first digit is that of the number without its last digit.
      rw [Nat.toDigits_of_base_le (by norm_num) hlarge,
        List.head?_append_of_ne_nil _ Nat.toDigits_ne_nil]
      exact ih (n / 10) (by omega) (by omega)

theorem isInteger_toDigits (n : ℕ) : IsInteger (Nat.toDigits 10 n) := by
  refine ⟨isDigits_toDigits n, Nat.toDigits_ne_nil, fun hzero => ?_⟩
  obtain rfl : n = 0 := not_not.mp fun hn => head?_toDigits_ne hn hzero
  rfl

end Naturals

/-! ## §3 Numerals -/

/-- No number goes on with `rest`: it is empty or starts with a delimiter. -/
def Ends (rest : List Char) : Prop :=
  ∀ c ∈ rest.head?, c ∈ [',', ']', '\x7d', ' ', '\t', '\n', '\r']

section Numerals

variable {negative : Bool} {ip fp ds rest : List Char} {significand : ℕ} {e : ℤ}

theorem ends_nil : Ends [] :=
  nofun

theorem Ends.startsWithDigit_eq (h : Ends rest) : startsWithDigit rest = false := by
  cases rest with
  | nil => rfl
  | cons c cs =>
    have hc := h c rfl
    simp only [List.mem_cons, List.not_mem_nil, or_false] at hc
    rcases hc with rfl | rfl | rfl | rfl | rfl | rfl | rfl <;> rfl

theorem Ends.head?_ne (h : Ends rest) :
    rest.head? ≠ some '.' ∧ rest.head? ≠ some 'e' ∧ rest.head? ≠ some 'E' := by
  refine ⟨fun hc => ?_, fun hc => ?_, fun hc => ?_⟩ <;> exact absurd (h _ hc) (by decide)

/-- How reading goes on after the digits before the point, of which `beyond` did not fit. -/
def readAfterInteger (negative : Bool) (significand beyond : ℕ) :
    List Char → Except Fault (Number × List Char)
  | '.' :: cs => readFraction negative significand beyond cs
  | cs =>
    if beyond = 0 ∧ ¬ (cs.head? = some 'e' ∨ cs.head? = some 'E') then
      .ok (integer negative significand, cs)
    else readTail negative significand beyond cs

theorem readNumber_append (hip : IsInteger ip) (hend : startsWithDigit rest = false) :
    readNumber negative (ip ++ rest) =
      readAfterInteger negative (takeDigits 0 ip).significand (takeDigits 0 ip).rest.length
        rest := by
  obtain ⟨hdigits, hne, hleading⟩ := hip
  have htaken := @takeDigits_append ip rest 0 hdigits hend
  have hleft := @isDigits_rest_takeDigits ip 0 hdigits
  cases ip with
  | nil => exact absurd rfl hne
  | cons c ip =>
    obtain ⟨hc, -⟩ := isDigits_cons.mp hdigits
    have hgood : ¬ ((digit? c).isNone = true ∨ c = '0' ∧ startsWithDigit (ip ++ rest) = true) := by
      rintro (hnone | ⟨rfl, hdigit⟩)
      · rw [Option.isNone_iff_eq_none] at hnone
        rw [hnone] at hc
        cases hc
      · obtain rfl : ip = [] := hleading rfl
        rw [List.nil_append, hend] at hdigit
        cases hdigit
    rw [List.cons_append] at htaken ⊢
    rw [readNumber, if_neg hgood, htaken]
    dsimp only
    rw [digitCount_append hleft hend, dropDigits_append hleft hend]
    rfl

/-- The digits of a fraction lower the power of ten as far as they are taken. -/
theorem readFraction_append (hfp : IsDigits fp) (hne : fp ≠ [])
    (hend : startsWithDigit rest = false) :
    readFraction negative significand e (fp ++ rest) =
      readTail negative (takeDigits significand fp).significand
        (e - (takeDigits significand fp).count) rest := by
  have hcount := @count_add_length_takeDigits fp significand
  have hleft := @isDigits_rest_takeDigits fp significand hfp
  have hpos : fp.length ≠ 0 := mt List.length_eq_zero_iff.mp hne
  rw [readFraction, takeDigits_append hfp hend]
  dsimp only
  rw [dropDigits_append hleft hend]
  cases hrest : (takeDigits significand fp).rest with
  | nil =>
    rw [hrest, List.length_nil, Nat.add_zero] at hcount
    rw [List.nil_append, hend, if_neg Bool.false_ne_true, if_neg (hcount ▸ hpos)]
  | cons c ds =>
    rw [hrest] at hleft
    exact if_pos (isDigits_cons.mp hleft).1

/-- A fraction only lowers the power of ten. -/
theorem readNumber_fraction (hip : IsInteger ip) (hfp : IsDigits fp) (hne : fp ≠ [])
    (hfits : wholeNumber 0 (ip ++ fp) < wordSize) (hend : startsWithDigit rest = false) :
    readNumber negative (ip ++ '.' :: (fp ++ rest)) =
      readTail negative (wholeNumber 0 (ip ++ fp)) (-(fp.length : ℤ)) rest := by
  rw [wholeNumber_append hip.digits] at hfits ⊢
  rw [readNumber_append hip rfl, takeDigits_of_fits hip.digits (le_wholeNumber.trans_lt hfits),
    readAfterInteger, readFraction_append hfp hne hend, takeDigits_of_fits hfp hfits]
  dsimp only
  rw [List.length_nil, Nat.cast_zero, zero_sub]

/-- Without a point an exponent follows the digits. -/
theorem readNumber_exponent {mark : Char} (hmark : mark = 'e' ∨ mark = 'E') (hip : IsInteger ip)
    (hfits : wholeNumber 0 ip < wordSize) :
    readNumber negative (ip ++ mark :: rest) =
      readTail negative (wholeNumber 0 ip) 0 (mark :: rest) := by
  rcases hmark with rfl | rfl
  · rw [readNumber_append hip rfl, takeDigits_of_fits hip.digits hfits]
    simp [readAfterInteger]
  · rw [readNumber_append hip rfl, takeDigits_of_fits hip.digits hfits]
    simp [readAfterInteger]

/-- Digits alone are a whole number. -/
theorem readNumber_integer (hip : IsInteger ip) (hfits : wholeNumber 0 ip < wordSize)
    (hend : Ends rest) :
    readNumber negative (ip ++ rest) = .ok (integer negative (wholeNumber 0 ip), rest) := by
  obtain ⟨hpoint, he, hE⟩ := hend.head?_ne
  rw [readNumber_append hip hend.startsWithDigit_eq, takeDigits_of_fits hip.digits hfits]
  unfold readAfterInteger
  split
  · exact absurd rfl hpoint
  · exact if_pos ⟨rfl, fun h => h.elim he hE⟩

theorem readTail_of_end (hend : Ends rest) :
    readTail negative significand e rest =
      (decimalValue negative significand e).map fun x => (.float x, rest) := by
  obtain ⟨-, he, hE⟩ := hend.head?_ne
  unfold readTail
  split
  · exact absurd rfl he
  · exact absurd rfl hE
  · cases decimalValue negative significand e <;> rfl

/-- The value of a number with an exponent of the given sign and size. -/
def exponentValue (negative : Bool) (significand : ℕ) (e : ℤ) (down : Bool) (size : ℕ) :
    Except Fault Float :=
  if greatestExponent < size then
    if significand ≠ 0 ∧ ¬ down then malformed .numberOutOfRange
    else .ok (if negative then -0.0 else 0.0)
  else decimalValue negative significand (if down then e - size else e + size)

/-- An exponent is read up to its last digit. -/
theorem readExponent_append {cs : List Char} {down : Bool} (hds : IsDigits ds) (hne : ds ≠ [])
    (hsign : exponentSign cs = (down, ds ++ rest)) (hend : startsWithDigit rest = false) :
    readExponent negative significand e cs =
      (exponentValue negative significand e down (wholeNumber 0 ds)).map
        fun x => (.float x, rest) := by
  rw [readExponent, hsign, exponentValue]
  dsimp only
  have hvalue : wholeNumber 0 (ds ++ rest) = wholeNumber 0 ds := by
    rw [wholeNumber_append hds, wholeNumber_of_end hend]
  cases ds with
  | nil => exact absurd rfl hne
  | cons c ds =>
    obtain ⟨hc, -⟩ := isDigits_cons.mp hds
    have hsome : ¬ (digit? c).isNone = true := by
      rw [Option.isNone_iff_eq_none]
      exact Option.isSome_iff_ne_none.mp hc
    have hdrop := dropDigits_append hds hend
    rw [List.cons_append] at hvalue hdrop ⊢
    dsimp only
    rw [if_neg hsome, hvalue, hdrop]
    by_cases hlarge : greatestExponent < wholeNumber 0 (c :: ds)
    · rw [if_pos hlarge, if_pos hlarge]
      split <;> rfl
    · rw [if_neg hlarge, if_neg hlarge]
      cases decimalValue negative significand _ <;> rfl

/-- An exponent of moderate size is added to the power of ten. -/
theorem readTail_exponent {sign : List Char} {down : Bool} (hds : IsDigits ds) (hne : ds ≠ [])
    (hsign : exponentSign (sign ++ (ds ++ rest)) = (down, ds ++ rest)) (hend : Ends rest)
    (hsize : wholeNumber 0 ds ≤ greatestExponent) :
    readTail negative significand e ('e' :: (sign ++ (ds ++ rest))) =
      (decimalValue negative significand
        (if down then e - wholeNumber 0 ds else e + wholeNumber 0 ds)).map
        fun x => (.float x, rest) := by
  rw [readTail, readExponent_append hds hne hsign hend.startsWithDigit_eq, exponentValue,
    if_neg (not_lt.mpr hsize)]

end Numerals

end OnlineAggregation.Json
