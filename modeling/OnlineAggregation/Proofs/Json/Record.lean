import OnlineAggregation.Json.Record
import OnlineAggregation.Proofs.Json.Tree

/-!
# Reading records

A record is read from a text or taken from a tree that was read before. Main statements: both ways
agree on the value of a field, and on a record whose members all belong to fields, in any of its
texts; and a written row is read field by field, up to the first value that its field does not take
again.
-/

namespace OnlineAggregation.Json

/-! ## §1 Values of fields -/

namespace Scalar

variable {cs ds : List Char} {c : Char}

theorem read_of_ne (s : Scalar) (hcs : skipBlank cs = c :: ds) (hc : c ≠ 'n') :
    s.read cs = s.readNumber (c :: ds) := by
  cases s with
  | optionalNumber =>
    rw [read, hcs]
    split
    · rename_i heq
      cases heq
      exact absurd rfl hc
    · rfl
  | number =>
    rw [read, hcs]
    nofun
  | natural =>
    rw [read, hcs]
    nofun

/-- Where no number starts, a scalar is read only to say what it is. -/
theorem readNumber_of_ne (s : Scalar) (hminus : c ≠ '-') (hdigit : digit? c = none)
    (hbracket : c ≠ '[') (hbrace : c ≠ '\x7b') :
    s.readNumber (c :: ds) =
      readScalar c ds >>= fun p => unfit (.wrongType (Found.ofValue p.1) s.expectation) := by
  rw [readNumber, if_neg hminus, if_neg (by rw [hdigit]; exact Bool.false_ne_true), misfit,
    if_neg hbracket, if_neg hbrace]
  cases readScalar c ds <;> rfl

/-- **Both readers agree on a field**: reading its value from a text is reading a tree and taking
the value from that, with the same faults. -/
theorem read_eq_ofValue (s : Scalar) (hcs : skipBlank cs = c :: ds) (hbracket : c ≠ '[')
    (hbrace : c ≠ '\x7b') :
    s.read cs = readScalar c ds >>= fun p => (s.ofValue p.1).map (·, p.2) := by
  by_cases hnull : c = 'n'
  · subst hnull
    have hscalar : readScalar 'n' ds = (readWord ['u', 'l', 'l'] ds).map (Value.null, ·) := rfl
    cases s with
    | optionalNumber =>
      rw [read, hcs, hscalar]
      change (readWord ['u', 'l', 'l'] ds).map _ = _
      cases readWord ['u', 'l', 'l'] ds <;> rfl
    | _ =>
      rw [read, hcs, readNumber_of_ne _ (by decide) rfl hbracket hbrace, hscalar]
      · cases readWord ['u', 'l', 'l'] ds <;> rfl
      · nofun
  rw [s.read_of_ne hcs hnull]
  by_cases hminus : c = '-'
  · subst hminus
    change (Json.readNumber true ds >>= _) = (Json.readNumber true ds).map _ >>= _
    cases Json.readNumber true ds with
    | error fault => rfl
    | ok p => cases s.ofNumber p.1 <;> rfl
  by_cases hdigit : (digit? c).isSome = true
  · have hne := fun d => @ne_of_digit c d hdigit
    rw [readNumber, if_neg hminus, if_pos hdigit, readScalar, if_neg hnull, if_neg (hne _ rfl),
      if_neg (hne _ rfl), if_neg (hne _ rfl), if_neg hminus, if_pos hdigit]
    change (Json.readNumber false (c :: ds) >>= _) =
      (Json.readNumber false (c :: ds)).map _ >>= _
    cases Json.readNumber false (c :: ds) with
    | error fault => rfl
    | ok p => cases s.ofNumber p.1 <;> rfl
  · -- What is read is a truth value or a string, which no field takes.
    have hnone : digit? c = none := by simpa using hdigit
    rw [s.readNumber_of_ne hminus hnone hbracket hbrace, readScalar, if_neg hnull]
    split_ifs with htrue hfalse hquote
    · cases readWord ['r', 'u', 'e'] ds <;> cases s <;> rfl
    · cases readWord ['a', 'l', 's', 'e'] ds <;> cases s <;> rfl
    · cases readString ds <;> cases s <;> rfl
    · rfl

/-- No field takes an array. -/
theorem read_array (s : Scalar) {vs : List Value} {space rest : List Char}
    (hspace : IsSpace space) :
    s.read (space ++ '[' :: cs) = (s.ofValue (.array vs)).map (·, rest) := by
  have hskip : skipBlank (space ++ '[' :: cs) = '[' :: cs := by
    rw [skipBlank_append hspace, skipBlank_cons rfl]
  rw [s.read_of_ne hskip (by decide)]
  cases s <;> rfl

/-- No field takes an object. -/
theorem read_object (s : Scalar) {ms : List (String × Value)} {space rest : List Char}
    (hspace : IsSpace space) :
    s.read (space ++ '\x7b' :: cs) = (s.ofValue (.object ms)).map (·, rest) := by
  have hskip : skipBlank (space ++ '\x7b' :: cs) = '\x7b' :: cs := by
    rw [skipBlank_append hspace, skipBlank_cons rfl]
  rw [s.read_of_ne hskip (by decide)]
  cases s <;> rfl

/-- A field takes its value from any text of a tree as it takes the tree. -/
theorem read_of_isText (s : Scalar) {room : ℕ} {v : Value} {space rest : List Char}
    (h : IsText room v cs) (hspace : IsSpace space) (hend : Ends rest) :
    s.read (space ++ (cs ++ rest)) = (s.ofValue v).map (·, rest) := by
  cases h with
  | scalar hv =>
    obtain ⟨c, ds, rfl, hblank, hc, hread⟩ := readScalar_of_isScalarText hv
    have hskip : skipBlank (space ++ (c :: ds ++ rest)) = c :: (ds ++ rest) := by
      rw [skipBlank_append hspace, List.cons_append, skipBlank_cons hblank]
    rw [s.read_eq_ofValue hskip, hread rest hend]
    · rfl
    · rintro rfl
      simp at hc
    · rintro rfl
      simp at hc
  | array => exact s.read_array hspace
  | object => exact s.read_object hspace

end Scalar

/-! ## §2 Members -/

namespace Draft

variable {ρ : Type} {f : Field} {fs : List Field} {draft : Draft fs} {key : String}

section Put

variable {take : (s : Scalar) → Except Fault (s.Carrier × ρ)}

theorem put?_vacant (hname : f.name = key) :
    put? take key (f :: fs) (none, draft) =
      some ((take f.scalar).map fun p => ((some p.1, draft), p.2)) :=
  if_pos hname

theorem put?_taken (hname : f.name = key) (a : f.scalar.Carrier) :
    put? take key (f :: fs) (some a, draft) = some (unfit (.duplicateField key)) :=
  if_pos hname

theorem put?_of_ne (hname : f.name ≠ key) (slot : Option f.scalar.Carrier) :
    put? take key (f :: fs) (slot, draft) =
      (put? take key fs draft).map fun put => put.map fun p => ((slot, p.1), p.2) :=
  if_neg hname

/-- A key has a place exactly if it is the name of a field. -/
theorem isSome_put?_iff : (put? take key fs draft).isSome = true ↔ key ∈ fs.map Field.name := by
  induction fs with
  | nil => simp [put?]
  | cons f fs ih =>
    obtain ⟨slot, draft⟩ := draft
    by_cases hname : f.name = key
    · refine iff_of_true ?_ (by simp [hname])
      cases slot with
      | none => rw [put?_vacant hname, Option.isSome_some]
      | some a => rw [put?_taken hname, Option.isSome_some]
    · rw [put?_of_ne hname, Option.isSome_map, ih, List.map_cons, List.mem_cons,
        or_iff_right (Ne.symm hname)]

/-- What is left over is handed through. -/
theorem put?_map {value : (s : Scalar) → Except Fault s.Carrier} {rest : ρ}
    (htake : ∀ s, take s = (value s).map (·, rest)) :
    put? take key fs draft =
      (put? (fun s => (value s).map fun a => (a, ())) key fs draft).map
        fun put => put.map fun p => (p.1, rest) := by
  induction fs with
  | nil => rfl
  | cons f fs ih =>
    obtain ⟨slot, draft⟩ := draft
    by_cases hname : f.name = key
    · cases slot with
      | some a =>
        rw [put?_taken hname, put?_taken hname]
        rfl
      | none =>
        rw [put?_vacant hname, put?_vacant hname, htake]
        cases value f.scalar <;> rfl
    · rw [put?_of_ne hname, put?_of_ne hname, ih, Option.map_map, Option.map_map]
      congr 1
      funext put
      cases put <;> rfl

end Put

end Draft

section Members

variable {fs : List Field} {draft : Draft fs} {room : ℕ} {space rest : List Char}

theorem membersToDraft_cons (m : String × Value) (ms : List (String × Value)) :
    membersToDraft fs draft (m :: ms) =
      membersToDraft fs draft [m] >>= fun draft => membersToDraft fs draft ms := by
  obtain ⟨key, v⟩ := m
  rw [membersToDraft, membersToDraft]
  split
  · rename_i put hput
    cases put <;> rfl
  · rfl

/-- Members are taken in one by one. -/
theorem foldlM_membersToDraft (ms : List (String × Value)) :
    ms.foldlM (fun draft m => membersToDraft fs draft [m]) draft = membersToDraft fs draft ms := by
  induction ms generalizing draft with
  | nil => rfl
  | cons m ms ih =>
    rw [List.foldlM_cons, membersToDraft_cons m ms]
    exact congrArg (membersToDraft fs draft [m] >>= ·) (funext fun draft => ih)

/-- A member is taken in from a text as from a tree, if its value is. -/
theorem readField_of_read {key : String} {v : Value} {cs : List Char}
    (hkey : key ∈ fs.map Field.name)
    (hread : ∀ s : Scalar, skipColon cs >>= s.read = (s.ofValue v).map (·, rest)) :
    readField fs draft key cs = (membersToDraft fs draft [(key, v)]).map (·, rest) := by
  obtain ⟨put, hput⟩ : ∃ put, Draft.put? (fun s => (s.ofValue v).map fun a => (a, ()))
      key fs draft = some put :=
    Option.isSome_iff_exists.mp (Draft.isSome_put?_iff.mpr hkey)
  rw [readField, membersToDraft, Draft.put?_map hread, hput]
  cases put <;> rfl

/-- A member is taken in from any of its texts as it is from the tree. -/
theorem readField_of_isText {e : Entry} (hkey : e.key ∈ fs.map Field.name) (he : e.IsWellFormed)
    (hv : IsText room e.value e.valueText) (hend : Ends rest) :
    readField fs draft e.key (e.tail ++ rest) =
      (membersToDraft fs draft [e.member]).map (·, rest) := by
  refine readField_of_read hkey fun s => ?_
  rw [skipColon_tail he]
  exact s.read_of_isText hv he.space hend

/-- **Both readers agree on records**, if all members belong to fields: a record is read from any
of its texts as it is taken from the tree. -/
theorem readRecord_of_isText (title : String) {ms : List (String × Value)} {cs : List Char}
    (h : IsText (room + 1) (.object ms) cs) (hkeys : ∀ m ∈ ms, m.1 ∈ fs.map Field.name)
    (hspace : IsSpace space) :
    readRecord title fs (room + 1) (space ++ (cs ++ rest)) =
      ((Value.object ms).toRow title fs).map (·, rest) := by
  cases h with
  | scalar hv => cases hv
  | @object _ es cs hform hes hcs =>
    have hmembers : readMembers (readField fs) ((cs ++ '\x7d' :: rest).length + 1) true
          (Draft.empty fs) (cs ++ '\x7d' :: rest) =
        ((es.map Entry.member).foldlM (fun draft m => membersToDraft fs draft [m])
          (Draft.empty fs)).map (·, rest) :=
      readMembers_object hcs hform fun e he draft xs hxs => readField_of_isText
        (hkeys e.member (List.mem_map_of_mem he)) (hform e he) (hes e he) hxs
    rw [List.cons_append, List.append_assoc, List.singleton_append, readRecord,
      skipBlank_append hspace, skipBlank_cons rfl, Value.toRow, ← foldlM_membersToDraft]
    change (readMembers (readField fs) _ true (Draft.empty fs) (cs ++ '\x7d' :: rest) >>= fun p =>
      Draft.complete fs p.1 >>= fun row => pure (row, p.2)) = _
    rw [hmembers]
    cases (es.map Entry.member).foldlM (fun draft m => membersToDraft fs draft [m])
      (Draft.empty fs) with
    | error fault => rfl
    | ok draft =>
      change (draft.complete fs >>= fun row => pure (row, rest)) =
        (draft.complete fs).map (·, rest)
      cases draft.complete fs <;> rfl

end Members

/-! ## §3 Rows -/

/-- A number is taken again if it is finite, since any other was written as `null`. -/
theorem Scalar.ofValue_reread_number (x : Float) :
    number.ofValue (number.toValue x).reread =
      if x.isFinite then .ok (Json.reread x) else unfit (.wrongType .null "f64") := by
  rw [toValue, Value.ofFloat, Value.reread, Number.reread]
  split <;> rfl

/-- A number that may be missing, as it is read back: one that is not finite was written as `null`,
and so is missing. -/
def rereadOption (x : Option Float) : Option Float :=
  (x.filter Float.isFinite).map Json.reread

@[simp] theorem rereadOption_none : rereadOption none = none :=
  rfl

theorem rereadOption_some (x : Float) :
    rereadOption (some x) = if x.isFinite then some (Json.reread x) else none := by
  cases hx : x.isFinite <;> simp [rereadOption, Option.filter, hx]

/-- Where a number may be missing, there is always something to read. -/
theorem Scalar.ofValue_reread_optionalNumber (x : Option Float) :
    optionalNumber.ofValue (optionalNumber.toValue x).reread = .ok (rereadOption x) := by
  cases x with
  | none => rfl
  | some x =>
    rw [toValue, Value.ofOption, Value.ofFloat, Value.reread, Number.reread, rereadOption_some]
    split <;> rfl

/-- The draft in which nothing is missing. -/
def Draft.ofRow : (fs : List Field) → Row fs → Draft fs
  | [], _ => ()
  | _ :: fs, (a, row) => (some a, Draft.ofRow fs row)

/-- What is read from the text of a row: each value is written and taken again by its field. -/
def Row.reread : (fs : List Field) → Row fs → Except Fault (Row fs)
  | [], _ => .ok ()
  | f :: fs, (a, row) => do
    let a ← f.scalar.ofValue (f.scalar.toValue a).reread
    let row ← Row.reread fs row
    pure (a, row)

section Rows

variable {f : Field} {fs : List Field} {draft : Draft fs}

theorem complete_ofRow (row : Row fs) : (Draft.ofRow fs row).complete fs = .ok row := by
  induction fs with
  | nil => rfl
  | cons f fs ih =>
    obtain ⟨a, row⟩ := row
    rw [Draft.ofRow, Draft.complete, ih row]
    rfl

/-- Members of other names leave a slot as it is. -/
theorem membersToDraft_of_ne {slot : Option f.scalar.Carrier} {ms : List (String × Value)}
    (hms : ∀ m ∈ ms, m.1 ≠ f.name) :
    membersToDraft (f :: fs) (slot, draft) ms = (membersToDraft fs draft ms).map (slot, ·) := by
  induction ms generalizing draft with
  | nil => rfl
  | cons m ms ih =>
    obtain ⟨key, v⟩ := m
    obtain ⟨hkey, hothers⟩ := List.forall_mem_cons.mp hms
    rw [membersToDraft, membersToDraft, Draft.put?_of_ne (Ne.symm hkey)]
    cases Draft.put? (fun s => (s.ofValue v).map fun a => (a, ())) key fs draft with
    | none => exact ih hothers
    | some put =>
      cases put with
      | error fault => rfl
      | ok p => exact ih hothers

theorem key_of_mem_members {row : Row fs} {m : String × Value} (hm : m ∈ Row.members fs row) :
    m.1 ∈ fs.map Field.name := by
  induction fs with
  | nil => cases hm
  | cons f fs ih =>
    obtain ⟨a, row⟩ := row
    rcases List.mem_cons.mp hm with rfl | hm
    · exact List.mem_cons_self
    · exact List.mem_cons_of_mem _ (ih hm)

theorem key_of_mem_rereadMembers {row : Row fs} {m : String × Value}
    (hm : m ∈ Value.rereadMembers (Row.members fs row)) : m.1 ∈ fs.map Field.name := by
  rw [Value.rereadMembers_eq_map] at hm
  obtain ⟨n, hn, rfl⟩ := List.mem_map.mp hm
  exact @key_of_mem_members fs row n hn

/-- The members of a row fill the draft, unless a field does not take its value again. -/
theorem membersToDraft_members (hnames : (fs.map Field.name).Nodup) (row : Row fs) :
    membersToDraft fs (Draft.empty fs)
        ((Row.members fs row).map fun m => (m.1, m.2.reread)) =
      (Row.reread fs row).map (Draft.ofRow fs) := by
  induction fs with
  | nil => rfl
  | cons f fs ih =>
    obtain ⟨a, row⟩ := row
    obtain ⟨hname, hnames⟩ := List.nodup_cons.mp hnames
    have hothers : ∀ m ∈ (Row.members fs row).map fun m => (m.1, m.2.reread), m.1 ≠ f.name := by
      intro _ hm heq
      obtain ⟨m, hmember, rfl⟩ := List.mem_map.mp hm
      have hkey : m.1 ∈ fs.map Field.name := key_of_mem_members hmember
      exact hname (heq ▸ hkey)
    rw [Row.members, List.map_cons, Draft.empty, membersToDraft, Draft.put?_vacant rfl, Row.reread]
    cases f.scalar.ofValue (f.scalar.toValue a).reread with
    | error fault => rfl
    | ok a =>
      change membersToDraft (f :: fs) (some a, Draft.empty fs) _ = _
      rw [membersToDraft_of_ne hothers, ih hnames]
      cases Row.reread fs row <;> rfl

/-- **Written rows are taken field by field** from the tree that is read. -/
theorem toRow_reread (hnames : (fs.map Field.name).Nodup) (title : String) (row : Row fs) :
    (Row.toValue fs row).reread.toRow title fs = Row.reread fs row := by
  rw [Row.toValue, Value.reread, Value.rereadMembers_eq_map, Value.toRow,
    membersToDraft_members hnames]
  cases Row.reread fs row with
  | error fault => rfl
  | ok row => exact complete_ofRow row

/-- **Written rows are read field by field** from their texts. -/
theorem readRecord_row (l : TreeLayout) (hnames : (fs.map Field.name).Nodup) (title : String)
    {row : Row fs} {room level : ℕ} {space rest : List Char}
    (hv : (Row.toValue fs row).Fits (room + 1)) (hspace : IsSpace space) :
    readRecord title fs (room + 1) (space ++ (l.text level (Row.toValue fs row) ++ rest)) =
      (Row.reread fs row).map (·, rest) := by
  rw [← toRow_reread hnames title]
  exact readRecord_of_isText title (l.isText_text hv) (fun m hm => key_of_mem_rereadMembers hm)
    hspace

end Rows

end OnlineAggregation.Json
