import OnlineAggregation.Json.Reader
import OnlineAggregation.Proofs.Json.Numeral

/-!
# Reading the skeleton of a text

Strings have many texts, since characters may be escaped, and so have arrays and objects, since
white space may stand between their parts. Main statements: a string is read from any of its texts;
and the elements of an array or the members of an object, separated by commas and any white space,
are read one after the other, up to the first fault, and what follows the closing bracket is left.
-/

namespace OnlineAggregation.Json

/-! ## §1 White space -/

/-- White space only. -/
def IsSpace (cs : List Char) : Prop :=
  ∀ c ∈ cs, isBlank c = true

section Space

variable {space cs : List Char} {c : Char}

@[simp] theorem isSpace_nil : IsSpace [] :=
  List.forall_mem_nil _

theorem isSpace_singleton (h : isBlank c = true) : IsSpace [c] :=
  List.forall_mem_singleton.mpr h

@[simp] theorem skipBlank_append (h : IsSpace space) : skipBlank (space ++ cs) = skipBlank cs :=
  List.dropWhile_append_of_pos h

theorem skipBlank_cons (h : isBlank c = false) : skipBlank (c :: cs) = c :: cs := by
  rw [skipBlank, List.dropWhile_cons, h]
  rfl

/-- A delimiter may stand behind white space. -/
theorem Ends.append (h : IsSpace space) (hcs : Ends cs) : Ends (space ++ cs) := by
  cases space with
  | nil => exact hcs
  | cons d space =>
    intro c hc
    obtain rfl : d = c := by simpa using hc
    have hblank := h d (List.mem_cons_self)
    simp only [isBlank, Bool.or_eq_true, decide_eq_true_eq] at hblank
    simp only [List.mem_cons]
    tauto

theorem ends_comma : Ends (',' :: cs) := by
  intro c hc
  obtain rfl : ',' = c := by simpa using hc
  exact List.mem_cons_self

theorem ends_bracket : Ends (']' :: cs) := by
  intro c hc
  obtain rfl : ']' = c := by simpa using hc
  simp

theorem ends_brace : Ends ('\x7d' :: cs) := by
  intro c hc
  obtain rfl : '\x7d' = c := by simpa using hc
  simp

end Space

section Digits

variable {c d : Char}

theorem ne_of_digit (hc : (digit? c).isSome = true) (hd : (digit? d).isSome = false) : c ≠ d := by
  rintro rfl
  rw [hc] at hd
  cases hd

theorem isBlank_of_digit (hc : (digit? c).isSome = true) : isBlank c = false := by
  have hne := fun d => @ne_of_digit c d hc
  simp [isBlank, hne ' ' rfl, hne '\t' rfl, hne '\n' rfl, hne '\r' rfl]

end Digits

/-! ## §2 Strings -/

/-- The texts of one character of a string. -/
inductive IsCharText : Char → List Char → Prop where
  /-- As it is, if it needs no escape. -/
  | plain {c : Char} (hquote : c ≠ '"') (hbackslash : c ≠ '\\') (hcontrol : ¬ c.toNat < 32) :
      IsCharText c [c]
  /-- By a letter of its own. -/
  | short {c x : Char} (hc : simpleEscape? c = some x) : IsCharText x ['\\', c]
  /-- By the digits of its code, which no surrogate has. -/
  | unit {a b c d : Char} {n : ℕ} (hn : hexUnit? a b c d = some n)
      (htrailing : isTrailing n = false) (hleading : isLeading n = false) :
      IsCharText (Char.ofNat n) ['\\', 'u', a, b, c, d]
  /-- By a pair of surrogates. -/
  | pair {a b c d e f g h : Char} {n m : ℕ} (hn : hexUnit? a b c d = some n)
      (hleading : isLeading n = true) (hm : hexUnit? e f g h = some m)
      (htrailing : isTrailing m = true) :
      IsCharText (joined n m) ['\\', 'u', a, b, c, d, '\\', 'u', e, f, g, h]

/-- The texts of a string after its opening quote. -/
inductive IsStringText : List Char → List Char → Prop where
  | nil : IsStringText [] ['"']
  | cons {c : Char} {s t cs : List Char} (hc : IsCharText c t) (hs : IsStringText s cs) :
      IsStringText (c :: s) (t ++ cs)

section Strings

variable {c : Char} {s : String} {cs rest : List Char}

/-- A character that needs no escape stands for itself. -/
theorem readChars_plain (hquote : c ≠ '"') (hbackslash : c ≠ '\\') (hcontrol : ¬ c.toNat < 32) :
    readChars (c :: cs) = withFirst c (readChars cs) := by
  rw [readChars.eq_def]
  split
  · rename_i heq
    cases heq
  · rename_i heq
    cases heq
    exact absurd rfl hquote
  · rename_i heq
    cases heq
    exact absurd rfl hbackslash
  · rename_i heq
    cases heq
    exact absurd rfl hbackslash
  · rename_i heq
    cases heq
    exact absurd rfl hbackslash
  · rename_i heq
    cases heq
    exact absurd rfl hbackslash
  · rename_i heq
    cases heq
    exact if_neg hcontrol

private theorem isTrailing_of_isLeading {n : ℕ} (h : isLeading n = true) :
    isTrailing n = false := by
  simp only [isLeading, isTrailing, Bool.and_eq_true, decide_eq_true_eq, Bool.and_eq_false_iff,
    decide_eq_false_iff_not] at h ⊢
  omega

theorem readChars_of_isCharText (h : IsCharText c cs) :
    readChars (cs ++ rest) = withFirst c (readChars rest) := by
  cases h with
  | plain hquote hbackslash hcontrol => exact readChars_plain hquote hbackslash hcontrol
  | @short x _ hx =>
    -- The letter of a code unit is not one of the short escapes.
    have hne : x ≠ 'u' := by
      rintro rfl
      cases hx
    change readChars ('\\' :: x :: rest) = _
    rw [readChars.eq_def]
    split
    · rename_i heq
      cases heq
    · rename_i heq
      cases heq
    · rename_i heq
      cases heq
    · rename_i heq
      cases heq
      exact absurd rfl hne
    · rename_i heq
      cases heq
      exact absurd rfl hne
    · rename_i heq
      cases heq
      rw [hx]
    · rename_i hescape heq
      cases heq
      exact absurd rfl (hescape x rest rfl)
  | unit hn htrailing hleading =>
    rw [List.cons_append, List.cons_append, List.cons_append, List.cons_append, List.cons_append,
      List.cons_append, readChars, hn]
    dsimp only
    rw [htrailing, hleading]
    rfl
  | @pair a b c d e f g h n m hn hleading hm htrailing =>
    simp only [List.cons_append, List.nil_append]
    rw [readChars, hn]
    dsimp only
    -- A unit is never both, so the reader goes on to the second one.
    rw [isTrailing_of_isLeading hleading, hleading, if_neg Bool.false_ne_true, if_pos rfl]
    simp only [hm, htrailing, if_true]

/-- **Strings are read** from any of their texts. -/
theorem readString_of_isStringText (h : IsStringText s.toList cs) :
    readString (cs ++ rest) = .ok (s, rest) := by
  have hchars : ∀ {s cs : List Char}, IsStringText s cs →
      readChars (cs ++ rest) = .ok (s, rest) := by
    intro s cs h
    induction h with
    | nil => rfl
    | cons hc _ ih =>
      rw [List.append_assoc, readChars_of_isCharText hc, ih]
      rfl
  rw [readString, hchars h]
  simp [Except.map]

/-- A string without quotes, backslashes and control characters may stand as it is. -/
theorem isStringText_of_plain {s : List Char}
    (h : ∀ c ∈ s, c ≠ '"' ∧ c ≠ '\\' ∧ ¬ c.toNat < 32) : IsStringText s (s ++ ['"']) := by
  induction s with
  | nil => exact .nil
  | cons c s ih =>
    obtain ⟨⟨hquote, hbackslash, hcontrol⟩, hs⟩ := List.forall_mem_cons.mp h
    rw [List.cons_append, ← List.singleton_append]
    exact .cons (.plain hquote hbackslash hcontrol) (ih hs)

private theorem hexUnit_digits : ∀ n : Fin 32,
    hexUnit? '0' '0' (n.val / 16).digitChar (n.val % 16).digitChar = some n.val ∧
      isTrailing n.val = false ∧ isLeading n.val = false := by
  decide

/-- What is written for a character is one of its texts. -/
theorem isCharText_escape : IsCharText c (escape c) := by
  unfold escape
  split_ifs with hquote hbackslash hn hr ht hb hf hcontrol
  · exact .short (by rw [hquote]; rfl)
  · exact .short (by rw [hbackslash]; rfl)
  · exact .short (by rw [hn]; rfl)
  · exact .short (by rw [hr]; rfl)
  · exact .short (by rw [ht]; rfl)
  · exact .short (by rw [hb]; rfl)
  · exact .short (by rw [hf]; rfl)
  · obtain ⟨hunit, htrailing, hleading⟩ := hexUnit_digits ⟨c.toNat, hcontrol⟩
    have htext := IsCharText.unit hunit htrailing hleading
    rwa [Char.ofNat_toNat] at htext
  · exact .plain hquote hbackslash hcontrol

theorem isStringText_escape (s : List Char) : IsStringText s (s.flatMap escape ++ ['"']) := by
  induction s with
  | nil => exact .nil
  | cons c s ih =>
    rw [List.flatMap_cons, List.append_assoc]
    exact .cons isCharText_escape ih

theorem toList_quote (s : String) :
    (quote s).toList = '"' :: (s.toList.flatMap escape ++ ['"']) := by
  simp [quote]

end Strings

/-! ## §3 Parts in a row -/

/-- The texts of parts that are separated by commas, with white space around each of them. -/
inductive IsSeparated {β : Type} (text : β → List Char) : List β → List Char → Prop where
  | nil {space : List Char} (hspace : IsSpace space) : IsSeparated text [] space
  | last {b : β} {before after : List Char} (hbefore : IsSpace before) (hafter : IsSpace after) :
      IsSeparated text [b] (before ++ (text b ++ after))
  | cons {b : β} {bs : List β} {before after cs : List Char} (hbefore : IsSpace before)
      (hafter : IsSpace after) (hne : bs ≠ []) (hbs : IsSeparated text bs cs) :
      IsSeparated text (b :: bs) (before ++ (text b ++ (after ++ ',' :: cs)))

/-- What stands before a part: a comma, unless it is the first. -/
def lead (first : Bool) : List Char :=
  if first then [] else [',']

/-- The characters are enough fuel for the parts. -/
theorem IsSeparated.length_lt {β : Type} {text : β → List Char} {bs : List β} {cs rest : List Char}
    {c : Char} (h : IsSeparated text bs cs) : bs.length < (cs ++ c :: rest).length + 1 := by
  induction h with
  | nil => exact Nat.succ_pos _
  | last =>
    simp only [List.length_append, List.length_cons, List.length_nil]
    omega
  | cons _ _ _ _ ih =>
    simp only [List.length_append, List.length_cons] at ih ⊢
    omega

/-! ## §4 Arrays -/

/-- An element begins here: not with white space, and not with what closes an array. -/
def Begins (cs : List Char) : Prop :=
  ∃ c ∈ cs.head?, isBlank c = false ∧ c ≠ ']'

section Arrays

variable {α β : Type} {read : List Char → Except Fault (α × List Char)} {value : β → α}
  {text : β → List Char} {bs : List β} {space cs rest xs : List Char} {first : Bool} {fuel : ℕ}

theorem Begins.append (h : Begins cs) : Begins (cs ++ rest) := by
  obtain ⟨c, hc, hne⟩ := h
  exact ⟨c, List.mem_head?_append_of_mem_head? hc, hne⟩

theorem nextElement_append (hspace : IsSpace space) :
    nextElement first (space ++ xs) = nextElement first xs := by
  rw [nextElement, nextElement, skipBlank_append hspace]

theorem nextElement_close (hspace : IsSpace space) :
    nextElement first (space ++ ']' :: rest) = .ok (false, ']' :: rest) := by
  rw [nextElement, skipBlank_append hspace]
  rfl

theorem nextElement_first (hspace : IsSpace space) (hcs : Begins cs) :
    nextElement true (space ++ cs) = .ok (true, cs) := by
  obtain ⟨c, hc, hblank, hne⟩ := hcs
  obtain ⟨cs, rfl⟩ := List.head?_eq_some_iff.mp hc
  rw [nextElement, skipBlank_append hspace, skipBlank_cons hblank]
  split
  · rename_i heq
    cases heq
  · rename_i heq
    cases heq
    exact absurd rfl hne
  · rename_i heq
    cases heq
    rfl

/-- After a comma there has to be one more element. -/
private theorem nextElement_of_comma (cs : List Char) :
    nextElement false (',' :: cs) = match skipBlank cs with
      | [] => unfinished .value
      | ']' :: _ => malformed .trailingComma
      | cs => .ok (true, cs) := by
  rw [nextElement, skipBlank_cons rfl]
  rfl

theorem nextElement_comma (hspace : IsSpace space) (hcs : Begins cs) :
    nextElement false (',' :: (space ++ cs)) = .ok (true, cs) := by
  obtain ⟨c, hc, hblank, hne⟩ := hcs
  obtain ⟨cs, rfl⟩ := List.head?_eq_some_iff.mp hc
  rw [nextElement_of_comma, skipBlank_append hspace, skipBlank_cons hblank]
  split
  · rename_i heq
    cases heq
  · rename_i heq
    cases heq
    exact absurd rfl hne
  · rfl

theorem nextElement_lead (hspace : IsSpace space) (hxs : Begins xs) :
    nextElement first (lead first ++ (space ++ xs)) = .ok (true, xs) := by
  cases first with
  | true => exact nextElement_first hspace hxs
  | false => exact nextElement_comma hspace hxs

/-- One element is read, and then the others. -/
theorem readElements_of_next {cs' tail : List Char} {a : Except Fault α}
    (hnext : nextElement first cs = .ok (true, cs')) (hread : read cs' = a.map (·, tail)) :
    readElements read (fuel + 1) first cs =
      a >>= fun x => (readElements read fuel false tail).map fun p => (x :: p.1, p.2) := by
  rw [readElements, hnext]
  change (read cs' >>= fun p => readElements read fuel false p.2 >>= fun q =>
    pure (p.1 :: q.1, q.2)) = _
  rw [hread]
  cases a with
  | error fault => rfl
  | ok x =>
    change (readElements read fuel false tail >>= fun q => pure (x :: q.1, q.2)) = _
    cases readElements read fuel false tail <;> rfl

theorem readElements_append (hspace : IsSpace space) :
    readElements read fuel first (space ++ xs) = readElements read fuel first xs := by
  cases fuel with
  | zero => rfl
  | succ fuel => rw [readElements, readElements, nextElement_append hspace]

theorem readElements_close :
    readElements read (fuel + 1) first (']' :: rest) = .ok ([], rest) := by
  rw [readElements, ← List.nil_append (']' :: rest), nextElement_close isSpace_nil]
  rfl

/-- Separated elements are read one after the other. -/
theorem readElements_of_isSeparated (hcs : IsSeparated text bs cs)
    (hbegins : ∀ b ∈ bs, Begins (text b))
    (hread : ∀ b ∈ bs, ∀ xs, Ends xs → read (text b ++ xs) = .ok (value b, xs))
    (hfirst : first = false → bs ≠ []) (hfuel : bs.length < fuel) :
    readElements read fuel first (lead first ++ (cs ++ ']' :: rest)) =
      .ok (bs.map value, rest) := by
  obtain ⟨fuel, rfl⟩ := Nat.exists_eq_succ_of_ne_zero (Nat.ne_zero_of_lt hfuel)
  induction hcs generalizing fuel first with
  | nil hspace =>
    obtain rfl : first = true := by
      by_contra h
      exact hfirst (Bool.eq_false_iff.mpr h) rfl
    rw [lead, if_pos rfl, List.nil_append, readElements_append hspace, readElements_close]
    rfl
  | @last b before after hbefore hafter =>
    obtain ⟨fuel, rfl⟩ := Nat.exists_eq_succ_of_ne_zero
      (Nat.ne_zero_of_lt (Nat.lt_of_succ_lt_succ hfuel))
    have hb : b ∈ [b] := List.mem_cons_self
    rw [List.append_assoc, List.append_assoc,
      readElements_of_next (nextElement_lead hbefore (hbegins b hb).append)
        (a := .ok (value b)) (hread b hb _ (ends_bracket.append hafter)),
      readElements_append hafter, readElements_close]
    rfl
  | @cons b bs before after cs hbefore hafter hne hbs ih =>
    obtain ⟨fuel, rfl⟩ := Nat.exists_eq_succ_of_ne_zero
      (Nat.ne_zero_of_lt (Nat.lt_of_succ_lt_succ hfuel))
    obtain ⟨hbegin, hbegins⟩ := List.forall_mem_cons.mp hbegins
    obtain ⟨hhead, hread⟩ := List.forall_mem_cons.mp hread
    rw [List.append_assoc, List.append_assoc, List.append_assoc, List.cons_append,
      readElements_of_next (nextElement_lead hbefore hbegin.append)
        (a := .ok (value b)) (hhead _ (ends_comma.append hafter)),
      readElements_append hafter]
    -- The next call begins at the comma, and is not the first one any more.
    have hothers : readElements read (fuel + 1) false (',' :: (cs ++ ']' :: rest)) =
        .ok (bs.map value, rest) :=
      ih hbegins hread (fun _ => hne) fuel (Nat.lt_of_succ_lt_succ hfuel)
    rw [hothers]
    rfl

/-- **Arrays are read** to their end: all elements, one after the other. -/
theorem readElements_array (hcs : IsSeparated text bs cs) (hbegins : ∀ b ∈ bs, Begins (text b))
    (hread : ∀ b ∈ bs, ∀ xs, Ends xs → read (text b ++ xs) = .ok (value b, xs)) :
    readElements read ((cs ++ ']' :: rest).length + 1) true (cs ++ ']' :: rest) =
      .ok (bs.map value, rest) :=
  readElements_of_isSeparated hcs hbegins hread nofun hcs.length_lt

end Arrays

/-! ## §5 Objects -/

/-- A member together with what it is written with. -/
structure Entry where
  key : String
  value : Value
  keyText : List Char
  /-- What stands between the key and the colon. -/
  gap : List Char
  /-- What stands between the colon and the value. -/
  space : List Char
  valueText : List Char

namespace Entry

def member (e : Entry) : String × Value :=
  (e.key, e.value)

/-- What stands after the key. -/
def tail (e : Entry) : List Char :=
  e.gap ++ ':' :: (e.space ++ e.valueText)

def text (e : Entry) : List Char :=
  '"' :: (e.keyText ++ e.tail)

/-- Apart from its value, the entry is written as it should be. -/
structure IsWellFormed (e : Entry) : Prop where
  key : IsStringText e.key.toList e.keyText
  gap : IsSpace e.gap
  space : IsSpace e.space

end Entry

section Objects

variable {σ : Type} {member : σ → String → List Char → Except Fault (σ × List Char)}
  {step : σ → String × Value → Except Fault σ} {e : Entry} {es : List Entry}
  {cs space rest xs : List Char} {first : Bool} {fuel : ℕ} {known : σ} {k : String}

theorem nextKey_append (hspace : IsSpace space) :
    nextKey first (space ++ xs) = nextKey first xs := by
  rw [nextKey, nextKey, skipBlank_append hspace]

theorem nextKey_close (hspace : IsSpace space) :
    nextKey first (space ++ '\x7d' :: rest) = .ok (none, rest) := by
  rw [nextKey, skipBlank_append hspace]
  rfl

/-- After a comma there has to be one more key. -/
theorem nextKey_of_comma (cs : List Char) :
    nextKey false (',' :: cs) = match skipBlank cs with
      | [] => unfinished .value
      | '"' :: cs => (readString cs).map fun p : String × List Char => (some p.1, p.2)
      | '\x7d' :: _ => malformed .trailingComma
      | _ => malformed .keyMustBeString := by
  rw [nextKey, skipBlank_cons rfl]
  rfl

theorem nextKey_lead {q : List Char} (hq : IsStringText k.toList q) (hspace : IsSpace space) :
    nextKey first (lead first ++ (space ++ '"' :: (q ++ xs))) = .ok (some k, xs) := by
  have hkey : (readString (q ++ xs)).map (fun p => (some p.1, p.2)) = .ok (some k, xs) := by
    rw [readString_of_isStringText hq]
    rfl
  cases first with
  | true =>
    change nextKey true (space ++ '"' :: (q ++ xs)) = _
    rw [nextKey_append hspace, nextKey, skipBlank_cons rfl]
    exact hkey
  | false =>
    change nextKey false (',' :: (space ++ '"' :: (q ++ xs))) = _
    rw [nextKey_of_comma, skipBlank_append hspace, skipBlank_cons rfl]
    exact hkey

/-- One member is taken in, and then the others. -/
theorem readMembers_of_next {cs' tail : List Char} {a : Except Fault σ}
    (hnext : nextKey first cs = .ok (some k, cs'))
    (hmember : member known k cs' = a.map (·, tail)) :
    readMembers member (fuel + 1) first known cs =
      a >>= fun known => readMembers member fuel false known tail := by
  rw [readMembers, hnext]
  change (member known k cs' >>= fun p => readMembers member fuel false p.1 p.2) = _
  rw [hmember]
  cases a <;> rfl

theorem readMembers_append (hspace : IsSpace space) :
    readMembers member fuel first known (space ++ xs) =
      readMembers member fuel first known xs := by
  cases fuel with
  | zero => rfl
  | succ fuel => rw [readMembers, readMembers, nextKey_append hspace]

theorem readMembers_close :
    readMembers member (fuel + 1) first known ('\x7d' :: rest) = .ok (known, rest) := by
  rw [readMembers, ← List.nil_append ('\x7d' :: rest), nextKey_close isSpace_nil]
  rfl

/-- One entry is taken in, and then the others. -/
theorem readMembers_cons (hcs : IsSeparated Entry.text (e :: es) cs) (he : e.IsWellFormed)
    {a : Except Fault σ}
    (hmember : ∀ xs, Ends xs → member known e.key (e.tail ++ xs) = a.map (·, xs)) :
    ∃ next cs', IsSeparated Entry.text es cs' ∧ (next = false → es ≠ []) ∧
      readMembers member (fuel + 1) first known (lead first ++ (cs ++ '\x7d' :: rest)) =
        a >>= fun known =>
          readMembers member fuel next known (lead next ++ (cs' ++ '\x7d' :: rest)) := by
  have hnext : ∀ {before xs : List Char}, IsSpace before →
      nextKey first (lead first ++ (before ++ (e.text ++ xs))) =
        .ok (some e.key, e.tail ++ xs) := by
    intro before xs hbefore
    rw [Entry.text, List.cons_append, List.append_assoc]
    exact nextKey_lead he.key hbefore
  cases hcs with
  | @last _ before after hbefore hafter =>
    refine ⟨true, after, .nil hafter, nofun, ?_⟩
    rw [List.append_assoc, List.append_assoc,
      readMembers_of_next (hnext hbefore) (hmember _ (ends_brace.append hafter))]
    congr 1
    funext known
    -- Nothing but the closing brace is left, before which it does not matter what came.
    cases fuel with
    | zero => rfl
    | succ fuel =>
      rw [readMembers_append hafter, readMembers_close, lead, if_pos rfl, List.nil_append,
        readMembers_append hafter, readMembers_close]
  | @cons _ _ before after cs hbefore hafter hne hes =>
    refine ⟨false, cs, hes, fun _ => hne, ?_⟩
    rw [List.append_assoc, List.append_assoc, List.append_assoc, List.cons_append,
      readMembers_of_next (hnext hbefore) (hmember _ (ends_comma.append hafter))]
    congr 1
    funext known
    rw [readMembers_append hafter]
    rfl

theorem readMembers_nil (hcs : IsSeparated Entry.text [] cs) (hfirst : first = false → False) :
    readMembers member (fuel + 1) first known (lead first ++ (cs ++ '\x7d' :: rest)) =
      .ok (known, rest) := by
  obtain rfl : first = true := by
    by_contra h
    exact hfirst (Bool.eq_false_iff.mpr h)
  cases hcs with
  | nil hspace =>
    rw [lead, if_pos rfl, List.nil_append, readMembers_append hspace, readMembers_close]

/-- Separated members are taken in one after the other, up to the first fault. -/
theorem readMembers_of_isSeparated (hcs : IsSeparated Entry.text es cs)
    (hform : ∀ e ∈ es, e.IsWellFormed)
    (hmember : ∀ e ∈ es, ∀ known xs, Ends xs →
      member known e.key (e.tail ++ xs) = (step known e.member).map (·, xs))
    (hfirst : first = false → es ≠ []) (hfuel : es.length < fuel) :
    readMembers member fuel first known (lead first ++ (cs ++ '\x7d' :: rest)) =
      ((es.map Entry.member).foldlM step known).map (·, rest) := by
  obtain ⟨fuel, rfl⟩ := Nat.exists_eq_succ_of_ne_zero (Nat.ne_zero_of_lt hfuel)
  induction es generalizing fuel first known cs with
  | nil => exact readMembers_nil hcs fun h => hfirst h rfl
  | cons e es ih =>
    obtain ⟨fuel, rfl⟩ := Nat.exists_eq_succ_of_ne_zero
      (Nat.ne_zero_of_lt (Nat.lt_of_succ_lt_succ hfuel))
    obtain ⟨he, hform⟩ := List.forall_mem_cons.mp hform
    obtain ⟨hhead, hmember⟩ := List.forall_mem_cons.mp hmember
    obtain ⟨next, cs', hcs', hnext, hread⟩ := @readMembers_cons σ member e es cs rest first
      (fuel + 1) known hcs he (step known e.member) (hhead known)
    rw [hread, List.map_cons, List.foldlM_cons]
    cases step known e.member with
    | error fault => rfl
    | ok known =>
      exact ih hcs' hform hmember hnext fuel (Nat.lt_of_succ_lt_succ hfuel)

/-- **Objects are read** to their end: all members, one after the other, up to the first fault. -/
theorem readMembers_object (hcs : IsSeparated Entry.text es cs)
    (hform : ∀ e ∈ es, e.IsWellFormed)
    (hmember : ∀ e ∈ es, ∀ known xs, Ends xs →
      member known e.key (e.tail ++ xs) = (step known e.member).map (·, xs)) :
    readMembers member ((cs ++ '\x7d' :: rest).length + 1) true known (cs ++ '\x7d' :: rest) =
      ((es.map Entry.member).foldlM step known).map (·, rest) :=
  readMembers_of_isSeparated hcs hform hmember nofun hcs.length_lt

end Objects

end OnlineAggregation.Json
