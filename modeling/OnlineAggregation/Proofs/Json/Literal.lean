import OnlineAggregation.Proofs.Json.Numeral

/-!
# Number literals

JSON writes numbers with an integer part and perhaps a fraction and an exponent, each of any length.
Main statements: a literal is read to its end and no further, and what is read does not depend on
what follows; it is a number, or the fault that the number is out of range.
-/

namespace OnlineAggregation.Json

/-! ## §1 The grammar -/

/-- A point and digits, or nothing. -/
inductive IsFraction : List Char → Prop where
  | none : IsFraction []
  | point {ds : List Char} (hdigits : IsDigits ds) (hne : ds ≠ []) : IsFraction ('.' :: ds)

/-- A mark, perhaps a sign, and digits, or nothing. -/
inductive IsExponent : List Char → Prop where
  | none : IsExponent []
  | mark {c : Char} {sign ds : List Char} (hmark : c = 'e' ∨ c = 'E')
      (hsign : sign = [] ∨ sign = ['+'] ∨ sign = ['-']) (hdigits : IsDigits ds) (hne : ds ≠ []) :
      IsExponent (c :: (sign ++ ds))

/-- The text of a number after its sign. -/
inductive IsLiteral : List Char → Prop where
  | parts {ip fp ep : List Char} (hip : IsInteger ip) (hfp : IsFraction fp) (hep : IsExponent ep) :
      IsLiteral (ip ++ (fp ++ ep))

section Grammar

variable {ds ep rest : List Char}

theorem exists_exponentSign {sign : List Char} (hsign : sign = [] ∨ sign = ['+'] ∨ sign = ['-'])
    (hdigits : IsDigits ds) (hne : ds ≠ []) :
    ∃ down, ∀ rest, exponentSign (sign ++ (ds ++ rest)) = (down, ds ++ rest) := by
  rcases hsign with rfl | rfl | rfl
  · refine ⟨false, fun rest => ?_⟩
    cases ds with
    | nil => exact absurd rfl hne
    | cons c ds =>
      obtain ⟨hc, -⟩ := isDigits_cons.mp hdigits
      rw [List.nil_append, List.cons_append]
      unfold exponentSign
      split
      · rename_i heq
        cases heq
        cases hc
      · rename_i heq
        cases heq
        cases hc
      · rfl
  · exact ⟨false, fun rest => rfl⟩
  · exact ⟨true, fun rest => rfl⟩

/-- The digits before an exponent end where it begins. -/
theorem IsExponent.startsWithDigit_eq (h : IsExponent ep) (hend : Ends rest) :
    startsWithDigit (ep ++ rest) = false := by
  cases h with
  | none => exact hend.startsWithDigit_eq
  | mark hmark => rcases hmark with rfl | rfl <;> rfl

end Grammar

/-! ## §2 Values -/

/-- A value, or the fault that it is out of range. -/
def IsSettled {α : Type} (r : Except Fault α) : Prop :=
  (∃ a, r = .ok a) ∨ r = malformed .numberOutOfRange

section Values

variable {α β : Type} {r r' : Except Fault α} {negative down : Bool} {significand size : ℕ} {e : ℤ}

theorem isSettled_ok (a : α) : IsSettled (.ok a) :=
  Or.inl ⟨a, rfl⟩

theorem isSettled_outOfRange : IsSettled (malformed .numberOutOfRange : Except Fault α) :=
  Or.inr rfl

theorem IsSettled.map (h : IsSettled r) (f : α → β) : IsSettled (r.map f) := by
  rcases h with ⟨a, rfl⟩ | rfl
  · exact isSettled_ok (f a)
  · exact isSettled_outOfRange

theorem IsSettled.ite {p : Prop} [Decidable p] (h : IsSettled r) (h' : IsSettled r') :
    IsSettled (if p then r else r') := by
  split
  · exact h
  · exact h'

theorem isSettled_scaleBy (fuel : ℕ) (f : Float) (e : ℤ) : IsSettled (scaleBy fuel f e) := by
  have hscaled : IsSettled (if (f * powerOfTen e.natAbs).isInf then malformed .numberOutOfRange
      else .ok (f * powerOfTen e.natAbs)) :=
    isSettled_outOfRange.ite (isSettled_ok _)
  induction fuel generalizing f e with
  | zero =>
    unfold scaleBy
    exact (hscaled.ite (isSettled_ok _)).ite
      ((isSettled_ok _).ite (isSettled_outOfRange.ite (isSettled_ok _)))
  | succ fuel ih =>
    unfold scaleBy
    exact (hscaled.ite (isSettled_ok _)).ite
      ((isSettled_ok _).ite (isSettled_outOfRange.ite
        (ih _ _ (isSettled_outOfRange.ite (isSettled_ok _)))))

theorem isSettled_decimalValue : IsSettled (decimalValue negative significand e) :=
  (isSettled_scaleBy _ _ _).map fun f => if negative then -f else f

theorem isSettled_exponentValue : IsSettled (exponentValue negative significand e down size) :=
  (isSettled_outOfRange.ite (isSettled_ok _)).ite isSettled_decimalValue

end Values

/-! ## §3 Reading -/

/-- What is read in front of anything that may end a number is the same each time, and settled. -/
def IsLocal (read : List Char → Except Fault (Number × List Char)) : Prop :=
  ∃ r, IsSettled r ∧ ∀ rest, Ends rest → read rest = r.map (·, rest)

section Reading

variable {negative : Bool} {significand beyond : ℕ} {e : ℤ} {ip fp ep cs rest : List Char}

theorem isLocal_readTail (hep : IsExponent ep) :
    IsLocal fun rest => readTail negative significand e (ep ++ rest) := by
  cases hep with
  | none =>
    refine ⟨(decimalValue negative significand e).map .float, isSettled_decimalValue.map _, ?_⟩
    intro rest hend
    change readTail negative significand e rest = _
    rw [readTail_of_end hend]
    cases decimalValue negative significand e <;> rfl
  | @mark c sign ds hmark hsign hdigits hne =>
    obtain ⟨down, hdown⟩ := exists_exponentSign hsign hdigits hne
    refine ⟨(exponentValue negative significand e down (wholeNumber 0 ds)).map .float,
      isSettled_exponentValue.map _, ?_⟩
    intro rest hend
    have htail : readTail negative significand e (c :: (sign ++ ds ++ rest)) =
        readExponent negative significand e (sign ++ ds ++ rest) := by
      rcases hmark with rfl | rfl <;> rfl
    change readTail negative significand e (c :: (sign ++ ds ++ rest)) = _
    rw [htail, List.append_assoc,
      readExponent_append hdigits hne (hdown rest) hend.startsWithDigit_eq]
    cases exponentValue negative significand e down (wholeNumber 0 ds) <;> rfl

/-- A number without a fraction is whole if no digits are left and there is no exponent. -/
theorem isLocal_readAfterInteger (hep : IsExponent ep) :
    IsLocal fun rest => readAfterInteger negative significand beyond (ep ++ rest) := by
  -- For both cases: without a point, the next character and the digits left over decide.
  have hpoint : ∀ cs : List Char, cs.head? ≠ some '.' →
      readAfterInteger negative significand beyond cs =
        if beyond = 0 ∧ ¬ (cs.head? = some 'e' ∨ cs.head? = some 'E') then
          .ok (integer negative significand, cs)
        else readTail negative significand beyond cs := by
    intro cs hcs
    unfold readAfterInteger
    split
    · exact absurd rfl hcs
    · rfl
  obtain ⟨r, hr, hread⟩ := @isLocal_readTail negative significand beyond ep hep
  cases hep with
  | none =>
    refine ⟨if beyond = 0 then .ok (integer negative significand) else r,
      (isSettled_ok _).ite hr, ?_⟩
    intro rest hend
    obtain ⟨hdot, he, hE⟩ := hend.head?_ne
    change readAfterInteger negative significand beyond rest = _
    rw [hpoint rest hdot]
    by_cases hbeyond : beyond = 0
    · rw [if_pos ⟨hbeyond, fun h => h.elim he hE⟩, if_pos hbeyond]
      rfl
    · rw [if_neg fun h => hbeyond h.1, if_neg hbeyond]
      exact hread rest hend
  | @mark c sign ds hmark =>
    refine ⟨r, hr, fun rest hend => ?_⟩
    rw [← hread rest hend]
    rcases hmark with rfl | rfl
    · refine (hpoint _ (by simp)).trans (if_neg fun h => h.2 (Or.inl rfl))
    · refine (hpoint _ (by simp)).trans (if_neg fun h => h.2 (Or.inr rfl))

theorem isLocal_readNumber (h : IsLiteral cs) :
    IsLocal fun rest => readNumber negative (cs ++ rest) := by
  cases h with
  | @parts ip fp ep hip hfp hep =>
    cases hfp with
    | none =>
      obtain ⟨r, hr, hread⟩ := @isLocal_readAfterInteger negative (takeDigits 0 ip).significand
        (takeDigits 0 ip).rest.length ep hep
      refine ⟨r, hr, fun rest hend => ?_⟩
      change readNumber negative (ip ++ ep ++ rest) = _
      rw [List.append_assoc, readNumber_append hip (hep.startsWithDigit_eq hend)]
      exact hread rest hend
    | @point ds hdigits hne =>
      -- The digits of the fraction go on from those of the integer.
      obtain ⟨r, hr, hread⟩ := @isLocal_readTail negative
        (takeDigits (takeDigits 0 ip).significand ds).significand
        ((takeDigits 0 ip).rest.length - (takeDigits (takeDigits 0 ip).significand ds).count) ep hep
      refine ⟨r, hr, fun rest hend => ?_⟩
      change readNumber negative (ip ++ '.' :: (ds ++ ep) ++ rest) = _
      rw [List.append_assoc, List.cons_append, List.append_assoc, readNumber_append hip rfl,
        readAfterInteger, readFraction_append hdigits hne (hep.startsWithDigit_eq hend)]
      exact hread rest hend

/-- The number that a literal stands for, if it is in range. -/
def literalValue (negative : Bool) (cs : List Char) : Except Fault Number :=
  (readNumber negative cs).map Prod.fst

private theorem literalValue_eq {r : Except Fault Number}
    (hread : ∀ rest, Ends rest → readNumber negative (cs ++ rest) = r.map (·, rest)) :
    literalValue negative cs = r := by
  have halone := hread [] ends_nil
  rw [List.append_nil] at halone
  rw [literalValue, halone]
  cases r <;> rfl

/-- **Literals are read to their end**, as they are by themselves. -/
theorem readNumber_literal (h : IsLiteral cs) (hend : Ends rest) :
    readNumber negative (cs ++ rest) = (literalValue negative cs).map (·, rest) := by
  obtain ⟨r, -, hread⟩ := @isLocal_readNumber negative cs h
  rw [literalValue_eq hread]
  exact hread rest hend

/-- **Every literal is a number**, unless it is out of range. -/
theorem isSettled_literalValue (h : IsLiteral cs) : IsSettled (literalValue negative cs) := by
  obtain ⟨r, hr, hread⟩ := @isLocal_readNumber negative cs h
  rw [literalValue_eq hread]
  exact hr

end Reading

end OnlineAggregation.Json
