import OnlineAggregation.Proofs.Json.Literal
import OnlineAggregation.Proofs.Json.Skeleton

/-!
# Texts of a tree

A tree has many texts: white space may stand between any two parts, characters may be escaped and
numbers written in several ways. Main statement: every text of a tree is read as this tree, whatever
stands around it.
-/

namespace OnlineAggregation.Json

/-! ## §1 Scalars -/

/-- The texts of a value that is neither array nor object. -/
inductive IsScalarText : Value → List Char → Prop where
  | null : IsScalarText .null ['n', 'u', 'l', 'l']
  | true : IsScalarText (.bool true) ['t', 'r', 'u', 'e']
  | false : IsScalarText (.bool false) ['f', 'a', 'l', 's', 'e']
  | string {s : String} {cs : List Char} (hs : IsStringText s.toList cs) :
      IsScalarText (.string s) ('"' :: cs)
  | number {n : Number} {cs : List Char} (hcs : IsLiteral cs)
      (hn : literalValue Bool.false cs = .ok n) : IsScalarText (.number n) cs
  | minus {n : Number} {cs : List Char} (hcs : IsLiteral cs)
      (hn : literalValue Bool.true cs = .ok n) : IsScalarText (.number n) ('-' :: cs)

theorem IsLiteral.exists_digit {cs : List Char} (h : IsLiteral cs) :
    ∃ c ds, cs = c :: ds ∧ (digit? c).isSome = true := by
  cases h with
  | @parts ip _ _ hip =>
    obtain ⟨hdigits, hne, -⟩ := hip
    cases ip with
    | nil => exact absurd rfl hne
    | cons c ip => exact ⟨c, _, rfl, (isDigits_cons.mp hdigits).1⟩

/-- The first character tells that a scalar comes, and the scalar is read to its end. -/
theorem readScalar_of_isScalarText {v : Value} {cs : List Char} (h : IsScalarText v cs) :
    ∃ c ds, cs = c :: ds ∧ isBlank c = false ∧ c ∉ ['[', '\x7b', ']'] ∧
      ∀ rest, Ends rest → readScalar c (ds ++ rest) = .ok (v, rest) := by
  cases h with
  | null => exact ⟨'n', _, rfl, rfl, by decide, fun rest _ => rfl⟩
  | true => exact ⟨'t', _, rfl, rfl, by decide, fun rest _ => rfl⟩
  | false => exact ⟨'f', _, rfl, rfl, by decide, fun rest _ => rfl⟩
  | @string s cs hs =>
    refine ⟨'"', _, rfl, rfl, by decide, fun rest _ => ?_⟩
    change (readString (cs ++ rest)).map _ = _
    rw [readString_of_isStringText hs]
    rfl
  | number hcs hn =>
    obtain ⟨c, ds, rfl, hc⟩ := hcs.exists_digit
    -- A digit is none of the characters that the reader asks for before it.
    have hne := fun d => @ne_of_digit c d hc
    refine ⟨c, ds, rfl, isBlank_of_digit hc, ?_, fun rest hend => ?_⟩
    · simp [hne '[' rfl, hne '\x7b' rfl, hne ']' rfl]
    · rw [readScalar, if_neg (hne _ rfl), if_neg (hne _ rfl), if_neg (hne _ rfl),
        if_neg (hne _ rfl), if_neg (hne _ rfl), if_pos hc, ← List.cons_append,
        readNumber_literal hcs hend, hn]
      rfl
  | @minus n cs hcs hn =>
    refine ⟨'-', _, rfl, rfl, by decide, fun rest hend => ?_⟩
    change (readNumber Bool.true (cs ++ rest)).map _ = _
    rw [readNumber_literal hcs hend, hn]
    rfl

/-! ## §2 Trees -/

/-- The texts of a tree that opens at most `room` arrays and objects inside one another. -/
inductive IsText : ℕ → Value → List Char → Prop where
  | scalar {room : ℕ} {v : Value} {cs : List Char} (hv : IsScalarText v cs) : IsText room v cs
  | array {room : ℕ} {es : List (Value × List Char)} {cs : List Char}
      (hes : ∀ e ∈ es, IsText room e.1 e.2) (hcs : IsSeparated Prod.snd es cs) :
      IsText (room + 1) (.array (es.map Prod.fst)) ('[' :: (cs ++ [']']))
  | object {room : ℕ} {es : List Entry} {cs : List Char} (hform : ∀ e ∈ es, e.IsWellFormed)
      (hes : ∀ e ∈ es, IsText room e.value e.valueText) (hcs : IsSeparated Entry.text es cs) :
      IsText (room + 1) (.object (es.map Entry.member)) ('\x7b' :: (cs ++ ['\x7d']))

/-- The texts of a tree as a whole, with white space around it. -/
def IsWholeText (v : Value) (text : String) : Prop :=
  ∃ before cs after, IsSpace before ∧ IsText greatestDepth v cs ∧ IsSpace after ∧
    text.toList = before ++ (cs ++ after)

/-! ## §3 Reading -/

section Values

variable {room : ℕ} {v : Value} {space cs rest : List Char} {c : Char} {e : Entry}

theorem readValue_scalar (hspace : IsSpace space) (hblank : isBlank c = false)
    (hc : c ∉ ['[', '\x7b', ']']) : readValue room (space ++ c :: cs) = readScalar c cs := by
  unfold readValue
  rw [skipBlank_append hspace, skipBlank_cons hblank]
  split
  · rename_i heq
    cases heq
  · rename_i heq
    cases heq
    simp at hc
  · rename_i heq
    cases heq
    simp at hc
  · rename_i heq
    cases heq
    rfl

theorem readValue_array (hspace : IsSpace space) :
    readValue (room + 1) (space ++ '[' :: cs) =
      (readElements (readValue room) (cs.length + 1) true cs).map fun p => (.array p.1, p.2) := by
  unfold readValue
  rw [skipBlank_append hspace, skipBlank_cons rfl]
  rfl

/-- Puts a member in front of those read before. -/
def consMember (room : ℕ) (known : List (String × Value)) (key : String) (cs : List Char) :
    Except Fault (List (String × Value) × List Char) :=
  skipColon cs >>= fun cs => (readValue room cs).map fun p => ((key, p.1) :: known, p.2)

/-- Members are put in front as they come, so they are in reverse order at the end. -/
theorem foldlM_consMember (ms : List (String × Value)) :
    ms.foldlM (fun known m => Except.ok (m :: known)) [] =
      (Except.ok ms.reverse : Except Fault _) := by
  rw [← List.append_nil (List.reverse _), ← List.foldl_flip_cons_eq_append']
  exact List.foldlM_pure

theorem readValue_object (hspace : IsSpace space) :
    readValue (room + 1) (space ++ '\x7b' :: cs) =
      (readMembers (consMember room) (cs.length + 1) true [] cs).map fun p =>
        (.object p.1.reverse, p.2) := by
  unfold readValue
  rw [skipBlank_append hspace, skipBlank_cons rfl]
  rfl

theorem IsText.begins (h : IsText room v cs) : Begins cs := by
  cases h with
  | scalar hv =>
    obtain ⟨c, ds, rfl, hblank, hc, -⟩ := readScalar_of_isScalarText hv
    refine ⟨c, rfl, hblank, ?_⟩
    rintro rfl
    simp at hc
  | array => exact ⟨'[', rfl, rfl, by decide⟩
  | object => exact ⟨'\x7b', rfl, rfl, by decide⟩

theorem skipColon_tail (he : e.IsWellFormed) :
    skipColon (e.tail ++ rest) = .ok (e.space ++ (e.valueText ++ rest)) := by
  rw [Entry.tail, List.append_assoc, List.cons_append, List.append_assoc, skipColon,
    skipBlank_append he.gap, skipBlank_cons rfl]
  rfl

/-- **Trees are read** from any of their texts. -/
theorem readValue_of_isText (h : IsText room v cs) (hspace : IsSpace space) (hend : Ends rest) :
    readValue room (space ++ (cs ++ rest)) = .ok (v, rest) := by
  induction h generalizing space rest with
  | scalar hv =>
    obtain ⟨c, ds, rfl, hblank, hc, hread⟩ := readScalar_of_isScalarText hv
    rw [List.cons_append, readValue_scalar hspace hblank hc, hread rest hend]
  | @array room es cs hes hcs ih =>
    rw [List.cons_append, List.append_assoc, List.singleton_append, readValue_array hspace,
      readElements_array hcs (fun e he => (hes e he).begins)
        fun e he xs hxs => ih e he isSpace_nil hxs]
    rfl
  | @object room es cs hform hes hcs ih =>
    -- A member is read as its value is, once its key and the colon are gone.
    have hmembers : readMembers (consMember room) ((cs ++ '\x7d' :: rest).length + 1) true []
          (cs ++ '\x7d' :: rest) =
        ((es.map Entry.member).foldlM (fun known m => Except.ok (m :: known)) []).map
          (·, rest) := by
      refine readMembers_object hcs hform fun e he known xs hxs => ?_
      rw [consMember, skipColon_tail (hform e he)]
      change (readValue room (e.space ++ (e.valueText ++ xs))).map _ = _
      rw [ih e he (hform e he).space hxs]
      rfl
    rw [List.cons_append, List.append_assoc, List.singleton_append, readValue_object hspace,
      hmembers, foldlM_consMember]
    simp [Except.map]

/-- A whole text is read if nothing but white space is left. -/
theorem readWhole_of_isSpace {α : Type} {read : List Char → Except Fault (α × List Char)}
    {text : String} {a : Except Fault α} {rest : List Char}
    (hread : read text.toList = a.map (·, rest)) (hrest : IsSpace rest) :
    readWhole read text = a := by
  rw [readWhole, hread]
  cases a with
  | error fault => rfl
  | ok a =>
    have hend : skipBlank rest = [] := by
      rw [← List.append_nil rest, skipBlank_append hrest]
      rfl
    dsimp only [Except.map, bind, Except.bind]
    rw [hend]
    rfl

/-- **Whole texts are parsed** as the trees they are texts of. -/
theorem Value.parse_of_isWholeText {text : String} (h : IsWholeText v text) :
    parse text = .ok v := by
  obtain ⟨before, cs, after, hbefore, hcs, hafter, htext⟩ := h
  have hend : Ends after := by
    rw [← List.append_nil after]
    exact ends_nil.append hafter
  refine readWhole_of_isSpace ?_ hafter
  rw [htext, readValue_of_isText hcs hbefore hend]
  rfl

end Values

end OnlineAggregation.Json
