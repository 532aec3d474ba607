import OnlineAggregation.Proofs.Json.FloatRange
import OnlineAggregation.Proofs.Json.Grammar

/-!
# Reading written trees

A tree has a compact and an indented text, which differ in their white space only. Main statement:
either is a text of the tree that was written, but that each finite number has become the number of
its digits, and a number that is not finite has become `null`.
-/

namespace OnlineAggregation.Json

open Decimal (Layout)
open Numeric (wordSize)

/-! ## §1 Numbers -/

namespace Number

/-- Whole numbers that are kept apart from binary64. -/
def InRange : Number → Prop
  | natural n => n < 2 ^ 64
  | negative n => 1 ≤ n ∧ n ≤ 2 ^ 63
  | float _ => True

/-- What is read from the text of a number. -/
def reread : Number → Value
  | float x => if x.isFinite then .ofFloat (Json.reread x) else .null
  | n => .number n

private theorem literalValue_toDigits {sign : Bool} {n : ℕ} (hn : n < wordSize) :
    IsLiteral (Nat.toDigits 10 n) ∧
      literalValue sign (Nat.toDigits 10 n) = .ok (integer sign n) := by
  have hinteger := isInteger_toDigits n
  constructor
  · rw [← List.append_nil (Nat.toDigits 10 n)]
    exact .parts hinteger .none .none
  · rw [literalValue, ← List.append_nil (Nat.toDigits 10 n),
      readNumber_integer hinteger (by rwa [wholeNumber_toDigits]) ends_nil, wholeNumber_toDigits]
    rfl

/-- The text of a number is a text of what is read. -/
theorem isScalarText_text {n : Number} (hn : n.InRange) : IsScalarText n.reread n.text.toList := by
  cases n with
  | natural n =>
    obtain ⟨hliteral, hvalue⟩ := @literalValue_toDigits false n hn
    rw [text, toList_toString]
    exact .number hliteral hvalue
  | negative n =>
    obtain ⟨hliteral, hvalue⟩ := @literalValue_toDigits true n (hn.2.trans_lt (by decide))
    rw [integer, if_neg (by simp), if_pos ⟨hn.1, hn.2⟩] at hvalue
    rw [text, String.toList_append, toList_toString]
    exact .minus hliteral hvalue
  | float x =>
    rw [text, reread]
    split
    · rename_i hx
      obtain ⟨negative, digits, htext, hliteral, hvalue⟩ := literalValue_write hx
      rw [htext]
      cases negative with
      | true => exact .minus hliteral hvalue
      | false => exact .number hliteral hvalue
    · rename_i hx
      rw [write_of_not_isFinite (Bool.eq_false_iff.mpr hx)]
      exact .null

end Number

/-! ## §2 Trees -/

namespace Value

mutual

/-- What is read from the text of a tree. -/
def reread : Value → Value
  | number n => n.reread
  | array vs => array (rereadElements vs)
  | object ms => object (rereadMembers ms)
  | v => v

def rereadElements : List Value → List Value
  | [] => []
  | v :: vs => v.reread :: rereadElements vs

def rereadMembers : List (String × Value) → List (String × Value)
  | [] => []
  | (k, v) :: ms => (k, v.reread) :: rereadMembers ms

end

theorem rereadElements_eq_map (vs : List Value) : rereadElements vs = vs.map reread := by
  induction vs with
  | nil => rfl
  | cons v vs ih => rw [rereadElements, ih, List.map_cons]

theorem rereadMembers_eq_map (ms : List (String × Value)) :
    rereadMembers ms = ms.map fun m => (m.1, m.2.reread) := by
  induction ms with
  | nil => rfl
  | cons m ms ih => rw [rereadMembers, ih, List.map_cons]

/-- A tree whose numbers are in range and which opens at most `room` arrays and objects inside one
another. -/
inductive Fits : ℕ → Value → Prop where
  | null {room : ℕ} : Fits room null
  | bool {room : ℕ} (b : Bool) : Fits room (bool b)
  | number {room : ℕ} {n : Number} (hn : n.InRange) : Fits room (number n)
  | string {room : ℕ} (s : String) : Fits room (string s)
  | array {room : ℕ} {vs : List Value} (h : ∀ v ∈ vs, Fits room v) : Fits (room + 1) (array vs)
  | object {room : ℕ} {ms : List (String × Value)} (h : ∀ m ∈ ms, Fits room m.2) :
      Fits (room + 1) (object ms)

/-- The text of a value that is neither array nor object. -/
def atom? : Value → Option String
  | null => some "null"
  | bool b => some (if b then "true" else "false")
  | number n => some n.text
  | string s => some (quote s)
  | array _ | object _ => none

end Value

/-! ## §3 Parts in a row -/

/-- The parts after the first, each behind a comma and white space. -/
def continued {β : Type} (text : β → List Char) (space : List Char) (bs : List β) : List Char :=
  bs.flatMap fun b => ',' :: (space ++ text b)

/-- Parts in a row, with `space` before each of them and `close` after the last. -/
def enclosed {β : Type} (text : β → List Char) (space close : List Char) : List β → List Char
  | [] => []
  | b :: bs => space ++ text b ++ continued text space bs ++ close

/-- A member with the given texts after its key. -/
def memberText (key : β → String) (after : β → List Char) (b : β) : List Char :=
  (quote (key b)).toList ++ after b

section Enclosed

variable {β γ : Type} {space close cs : List Char} {bs : List β} {f : β → γ}

@[simp] theorem continued_nil {text : β → List Char} : continued text space [] = [] :=
  rfl

theorem continued_cons {text : β → List Char} {b : β} :
    continued text space (b :: bs) = ',' :: (space ++ text b ++ continued text space bs) :=
  rfl

theorem isSeparated_enclosed {text : β → List Char} (hspace : IsSpace space)
    (hclose : IsSpace close) : IsSeparated text bs (enclosed text space close bs) := by
  induction bs with
  | nil => exact .nil isSpace_nil
  | cons b bs ih =>
    rw [enclosed, List.append_assoc, List.append_assoc]
    cases bs with
    | nil => exact .last hspace hclose
    | cons b' bs => exact .cons hspace isSpace_nil (List.cons_ne_nil _ _) ih

/-- The parts may carry their texts. -/
theorem IsSeparated.map {text : γ → List Char} (h : IsSeparated (fun b => text (f b)) bs cs) :
    IsSeparated text (bs.map f) cs := by
  induction h with
  | nil hspace => exact .nil hspace
  | last hbefore hafter => exact .last hbefore hafter
  | cons hbefore hafter hne _ ih => exact .cons hbefore hafter (by simpa using hne) ih

end Enclosed

/-! ## §4 Layouts -/

/-- A way of writing trees: what stands before the parts at a level, and after the colons. -/
structure TreeLayout where
  text : ℕ → Value → List Char
  before : ℕ → List Char
  gap : List Char
  isSpace_before : ∀ level, IsSpace (before level)
  isSpace_gap : IsSpace gap
  text_atom : ∀ level {v s}, v.atom? = some s → text level v = s.toList
  text_array : ∀ level vs, text level (.array vs) =
    '[' :: (enclosed (text (level + 1)) (before (level + 1)) (before level) vs ++ [']'])
  text_object : ∀ level ms, text level (.object ms) =
    '\x7b' :: (enclosed (memberText Prod.fst fun m => ':' :: (gap ++ text (level + 1) m.2))
      (before (level + 1)) (before level) ms ++ ['\x7d'])

namespace Value

theorem isSpace_newline (level : ℕ) : IsSpace (newline level).toList := by
  intro c hc
  rw [newline, String.toList_ofList, List.mem_cons, List.mem_replicate] at hc
  rcases hc with rfl | ⟨-, rfl⟩ <;> rfl

theorem toList_indentedElements (level : ℕ) (vs : List Value) :
    (indentedElements level vs).toList =
      continued (fun v => (indented level v).toList) (newline level).toList vs := by
  induction vs with
  | nil => rfl
  | cons v vs ih =>
    rw [indentedElements, continued_cons, String.toList_append, String.toList_append,
      String.toList_append, ih]
    rfl

theorem toList_indentedMembers (level : ℕ) (ms : List (String × Value)) :
    (indentedMembers level ms).toList =
      continued (memberText Prod.fst fun m => ':' :: ([' '] ++ (indented level m.2).toList))
        (newline level).toList ms := by
  induction ms with
  | nil => rfl
  | cons m ms ih =>
    rw [indentedMembers, continued_cons, memberText]
    simp only [String.toList_append, ih, List.append_assoc]
    rfl

/-- The layout with a line for every part. -/
def indentedLayout : TreeLayout where
  text level v := (indented level v).toList
  before level := (newline level).toList
  gap := [' ']
  isSpace_before := isSpace_newline
  isSpace_gap := isSpace_singleton rfl
  text_atom level v s hv := by
    cases v with
    | bool b => cases b <;> (cases hv; rfl)
    | array vs => cases hv
    | object ms => cases hv
    | _ =>
      cases hv
      rfl
  text_array level vs := by
    cases vs with
    | nil => simp [indented, enclosed]
    | cons v vs =>
      simp only [indented, enclosed, String.toList_append, toList_indentedElements,
        List.append_assoc]
      rfl
  text_object level ms := by
    cases ms with
    | nil => simp [indented, enclosed]
    | cons m ms =>
      simp only [indented, enclosed, memberText, String.toList_append, toList_indentedMembers,
        List.append_assoc]
      rfl

theorem toList_compactElements (v : Value) (vs : List Value) :
    (compactElements (v :: vs)).toList =
      v.compact.toList ++ continued (fun v => v.compact.toList) [] vs := by
  induction vs generalizing v with
  | nil => rw [compactElements, continued_nil, List.append_nil]
  | cons w vs ih =>
    rw [compactElements, continued_cons, String.toList_append, String.toList_append, ih]
    · simp
    · exact List.cons_ne_nil _ _

theorem toList_compactMembers (m : String × Value) (ms : List (String × Value)) :
    (compactMembers (m :: ms)).toList =
      memberText Prod.fst (fun m => ':' :: ([] ++ m.2.compact.toList)) m ++
        continued (memberText Prod.fst fun m => ':' :: ([] ++ m.2.compact.toList)) [] ms := by
  induction ms generalizing m with
  | nil =>
    rw [compactMembers, continued_nil, memberText]
    simp
  | cons n ms ih =>
    rw [compactMembers, continued_cons, memberText]
    · simp [ih]
    · exact List.cons_ne_nil _ _

/-- The layout without white space. -/
def compactLayout : TreeLayout where
  text _ v := v.compact.toList
  before _ := []
  gap := []
  isSpace_before _ := isSpace_nil
  isSpace_gap := isSpace_nil
  text_atom _ v s hv := by
    cases v with
    | bool b => cases b <;> (cases hv; rfl)
    | array vs => cases hv
    | object ms => cases hv
    | _ =>
      cases hv
      rfl
  text_array _ vs := by
    cases vs with
    | nil => simp [compact, compactElements, enclosed]
    | cons v vs => simp [compact, enclosed, toList_compactElements]
  text_object _ ms := by
    cases ms with
    | nil => simp [compact, compactMembers, enclosed]
    | cons m ms => simp [compact, enclosed, toList_compactMembers]

end Value

/-! ## §5 Texts -/

section Texts

variable {room level : ℕ} {v : Value} {text : String} {rest : List Char}

theorem Value.isScalarText_atom {s : String} (hv : v.Fits room) (hs : v.atom? = some s) :
    IsScalarText v.reread s.toList := by
  cases hv with
  | null =>
    cases hs
    exact .null
  | bool b =>
    cases hs
    cases b
    · exact .false
    · exact .true
  | string s =>
    cases hs
    rw [toList_quote]
    exact .string (isStringText_escape _)
  | number hn =>
    cases hs
    exact Number.isScalarText_text hn
  | array _ => cases hs
  | object _ => cases hs

namespace TreeLayout

variable (l : TreeLayout)

/-- A member as it is written. -/
def entry (level : ℕ) (m : String × Value) : Entry where
  key := m.1
  value := m.2.reread
  keyText := m.1.toList.flatMap escape ++ ['"']
  gap := []
  space := l.gap
  valueText := l.text level m.2

theorem isWellFormed_entry (m : String × Value) : (l.entry level m).IsWellFormed :=
  ⟨isStringText_escape _, isSpace_nil, l.isSpace_gap⟩

theorem text_entry (m : String × Value) :
    (l.entry level m).text =
      memberText Prod.fst (fun m => ':' :: (l.gap ++ l.text level m.2)) m := by
  rw [memberText, toList_quote]
  rfl

/-- **What is written is a text** of what is to be read. -/
theorem isText_text (hv : v.Fits room) : IsText room v.reread (l.text level v) := by
  -- Scalars are written alike at every depth and in every layout.
  have hatom : ∀ {room level : ℕ} {v : Value} {s : String}, v.Fits room → v.atom? = some s →
      IsText room v.reread (l.text level v) := by
    intro room level v s hv hs
    rw [l.text_atom level hs]
    exact .scalar (Value.isScalarText_atom hv hs)
  induction hv generalizing level with
  | null => exact hatom .null rfl
  | bool b => exact hatom (.bool b) rfl
  | number hn => exact hatom (.number hn) rfl
  | string s => exact hatom (.string s) rfl
  | @array room vs h ih =>
    have helements : ∀ e ∈ vs.map fun v => (v.reread, l.text (level + 1) v),
        IsText room e.1 e.2 := by
      intro e he
      obtain ⟨v, hv, rfl⟩ := List.mem_map.mp he
      exact ih v hv
    have htext := IsText.array helements (IsSeparated.map
      (isSeparated_enclosed (l.isSpace_before (level + 1)) (l.isSpace_before level)))
    rw [List.map_map] at htext
    rw [Value.reread, Value.rereadElements_eq_map, l.text_array]
    exact htext
  | @object room ms h ih =>
    have hform : ∀ e ∈ ms.map (l.entry (level + 1)), e.IsWellFormed := by
      intro e he
      obtain ⟨m, -, rfl⟩ := List.mem_map.mp he
      exact l.isWellFormed_entry m
    have hvalues : ∀ e ∈ ms.map (l.entry (level + 1)), IsText room e.value e.valueText := by
      intro e he
      obtain ⟨m, hm, rfl⟩ := List.mem_map.mp he
      exact ih m hm
    -- The layout writes a member in one piece, the grammar knows its parts.
    have hmembers : IsSeparated (fun m => (l.entry (level + 1) m).text) ms
        (enclosed (memberText Prod.fst fun m => ':' :: (l.gap ++ l.text (level + 1) m.2))
          (l.before (level + 1)) (l.before level) ms) := by
      rw [funext l.text_entry]
      exact isSeparated_enclosed (l.isSpace_before _) (l.isSpace_before _)
    have htext := IsText.object hform hvalues hmembers.map
    rw [List.map_map] at htext
    rw [Value.reread, Value.rereadMembers_eq_map, l.text_object]
    exact htext

end TreeLayout

namespace Value

/-- White space may follow. -/
theorem parse_of_text (l : TreeLayout) (hv : v.Fits greatestDepth)
    (htext : text.toList = l.text 0 v ++ rest) (hrest : IsSpace rest) :
    parse text = .ok v.reread :=
  parse_of_isWholeText ⟨[], l.text 0 v, rest, isSpace_nil, l.isText_text hv, hrest, htext⟩

/-- **Indented texts are read back.** -/
theorem parse_pretty (hv : v.Fits greatestDepth) : parse v.pretty = .ok v.reread :=
  parse_of_text indentedLayout hv (List.append_nil _).symm isSpace_nil

/-- **Compact texts are read back.** -/
theorem parse_compact (hv : v.Fits greatestDepth) : parse v.compact = .ok v.reread :=
  parse_of_text compactLayout hv (List.append_nil _).symm isSpace_nil

end Value

end Texts

end OnlineAggregation.Json
