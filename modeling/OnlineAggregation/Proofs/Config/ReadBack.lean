import OnlineAggregation.Config.ChoiceReader
import OnlineAggregation.Proofs.Json.Record

/-!
# Reading choices back

A choice is an object with its kind and its parameters. Depending on which comes first, the
parameters are read straight from the text or taken from a tree. Main statements: either way any
text of a choice is read as the parameters are taken from the tree; and what was written for a
choice is read as a choice of the same kind, parameter by parameter, unless a number that has to be
there was written as `null`.
-/

namespace OnlineAggregation.Config

open Json

/-! ## §1 Texts of a choice -/

theorem kindNamed_name (k : Kind) : kindNamed k.name = .ok k := by
  rw [kindNamed, Kind.ofName?_name]

theorem nodup_names (k : Kind) : (k.fields.map Field.name).Nodup := by
  cases k <;> decide

section Texts

variable {ms : List (String × Value)} {k : Kind} {room : ℕ} {cs space rest xs : List Char}
  {e e' : Entry}

/-- The parameters are read from a text as they are taken from the tree. -/
theorem readParams_of_isText (h : IsText (room + 1) (.object ms) cs)
    (hkeys : ∀ m ∈ ms, m.1 ∈ k.fields.map Field.name) (hspace : IsSpace space) :
    readParams k (room + 1) (space ++ (cs ++ rest)) =
      (paramsOfValue k (.object ms)).map (·, rest) := by
  rw [readParams, paramsOfValue, readRecord_of_isText _ h hkeys hspace]
  cases (Value.object ms).toRow (paramsTitle k) k.fields <;> rfl

/-- The kind is read from any text of its name. -/
theorem readKind_of_isText (h : IsText room (.string k.name) cs) (hspace : IsSpace space) :
    readKind room (space ++ (cs ++ rest)) = .ok (k, rest) := by
  cases h with
  | scalar hv =>
    cases hv with
    | @string _ q hq =>
      rw [List.cons_append, readKind, skipBlank_append hspace, skipBlank_cons rfl]
      change readKindName ('"' :: (q ++ rest)) = _
      rw [readKindName, skipBlank_cons rfl]
      change (readString (q ++ rest) >>= fun p => kindNamed p.1 >>= fun k => pure (k, p.2)) = _
      rw [readString_of_isStringText hq]
      change (kindNamed k.name >>= fun k => pure (k, rest)) = _
      rw [kindNamed_name]
      rfl

/-- If the kind comes first, it is kept for the parameters. -/
theorem readMember_kind_first (he : e.IsWellFormed) (hkind : e.member = ("type", .string k.name))
    (hv : IsText room e.value e.valueText) :
    readMember room .nothing e.key (e.tail ++ xs) = .ok (.kind k, xs) := by
  obtain ⟨hkey, hvalue⟩ := Prod.mk.inj hkind
  rw [hvalue] at hv
  rw [hkey]
  change (skipColon (e.tail ++ xs) >>= fun cs => readKind room cs >>= fun p =>
    pure (Progress.kind p.1, p.2)) = _
  rw [skipColon_tail he]
  change (readKind room (e.space ++ (e.valueText ++ xs)) >>= fun p =>
    pure (Progress.kind p.1, p.2)) = _
  rw [readKind_of_isText hv he.space]
  rfl

/-- If the kind comes second, the parameters are taken from the tree that was kept. -/
theorem readMember_kind_second (he : e.IsWellFormed) (hkind : e.member = ("type", .string k.name))
    (hv : IsText room e.value e.valueText) (v : Value) :
    readMember room (.params v) e.key (e.tail ++ xs) =
      ((paramsOfValue k v).map Progress.choice).map (·, xs) := by
  obtain ⟨hkey, hvalue⟩ := Prod.mk.inj hkind
  rw [hvalue] at hv
  rw [hkey]
  change (skipColon (e.tail ++ xs) >>= fun cs => readKind room cs >>= fun p =>
    paramsOfValue p.1 v >>= fun c => pure (Progress.choice c, p.2)) = _
  rw [skipColon_tail he]
  change (readKind room (e.space ++ (e.valueText ++ xs)) >>= fun p =>
    paramsOfValue p.1 v >>= fun c => pure (Progress.choice c, p.2)) = _
  rw [readKind_of_isText hv he.space]
  change (paramsOfValue k v >>= fun c => pure (Progress.choice c, xs)) = _
  cases paramsOfValue k v <;> rfl

/-- If the parameters come first, they are kept as a tree. -/
theorem readMember_params_first (he : e.IsWellFormed) (hparams : e.member = ("params", .object ms))
    (hv : IsText room e.value e.valueText) (hend : Ends xs) :
    readMember room .nothing e.key (e.tail ++ xs) = .ok (.params (.object ms), xs) := by
  obtain ⟨hkey, hvalue⟩ := Prod.mk.inj hparams
  rw [hvalue] at hv
  rw [hkey]
  change (skipColon (e.tail ++ xs) >>= fun cs => readValue room cs >>= fun p =>
    pure (Progress.params p.1, p.2)) = _
  rw [skipColon_tail he]
  change (readValue room (e.space ++ (e.valueText ++ xs)) >>= fun p =>
    pure (Progress.params p.1, p.2)) = _
  rw [readValue_of_isText hv he.space hend]
  rfl

/-- If the parameters come second, they are read straight from the text, as they would be taken from
the tree. -/
theorem readMember_params_second (he : e.IsWellFormed)
    (hparams : e.member = ("params", .object ms)) (hv : IsText (room + 1) e.value e.valueText)
    (hkeys : ∀ m ∈ ms, m.1 ∈ k.fields.map Field.name) :
    readMember (room + 1) (.kind k) e.key (e.tail ++ xs) =
      ((paramsOfValue k (.object ms)).map Progress.choice).map (·, xs) := by
  obtain ⟨hkey, hvalue⟩ := Prod.mk.inj hparams
  rw [hvalue] at hv
  rw [hkey]
  change (skipColon (e.tail ++ xs) >>= fun cs => readParams k (room + 1) cs >>= fun p =>
    pure (Progress.choice p.1, p.2)) = _
  rw [skipColon_tail he]
  change (readParams k (room + 1) (e.space ++ (e.valueText ++ xs)) >>= fun p =>
    pure (Progress.choice p.1, p.2)) = _
  rw [readParams_of_isText hv hkeys he.space]
  cases paramsOfValue k (.object ms) <;> rfl

/-- Two members, of which the second makes the choice, are read as the choice. -/
theorem readChoice_of_entries {known : Progress} {made : Except Fault Choice}
    (hform : e.IsWellFormed) (hform' : e'.IsWellFormed)
    (hcs : IsSeparated Entry.text [e, e'] cs) (hspace : IsSpace space)
    (hfirst : ∀ xs, Ends xs → readMember room .nothing e.key (e.tail ++ xs) = .ok (known, xs))
    (hsecond : ∀ xs, readMember room known e'.key (e'.tail ++ xs) =
      (made.map Progress.choice).map (·, xs)) :
    readChoice (room + 1) (space ++ ('\x7b' :: (cs ++ ['\x7d']) ++ rest)) =
      made.map (·, rest) := by
  have hmembers : ∀ fuel, 2 < fuel →
      readMembers (readMember room) fuel true .nothing (cs ++ '\x7d' :: rest) =
        (made.map Progress.choice).map (·, rest) := by
    intro fuel hfuel
    obtain ⟨fuel, rfl⟩ : ∃ n, fuel = n + 3 := Nat.exists_eq_add_of_le' hfuel
    obtain ⟨next, cs', hcs', hnext, hread⟩ := @readMembers_cons _ (readMember room) e [e'] cs rest
      true (fuel + 2) .nothing hcs hform (.ok known) hfirst
    obtain ⟨next', cs'', hcs'', hnext', hread'⟩ := @readMembers_cons _ (readMember room) e' [] cs'
      rest next (fuel + 1) known hcs' hform' (made.map Progress.choice) fun xs _ => hsecond xs
    refine (hread.trans hread').trans ?_
    cases made with
    | error fault => rfl
    | ok c => exact readMembers_nil hcs'' fun h => hnext' h rfl
  rw [List.cons_append, List.append_assoc, List.singleton_append, readChoice,
    skipBlank_append hspace, skipBlank_cons rfl]
  change (readMembers (readMember room) _ true .nothing (cs ++ '\x7d' :: rest) >>= fun p =>
    p.1.complete >>= fun c => pure (c, p.2)) = _
  rw [hmembers _ hcs.length_lt]
  cases made <;> rfl

/-- **Choices are read from any text** as their parameters are taken from the tree, whichever member
comes first. -/
theorem readChoice_of_isText {members : List (String × Value)}
    (hmembers : members = [("type", .string k.name), ("params", .object ms)] ∨
      members = [("params", .object ms), ("type", .string k.name)])
    (h : IsText (room + 2) (.object members) cs)
    (hkeys : ∀ m ∈ ms, m.1 ∈ k.fields.map Field.name) (hspace : IsSpace space) :
    readChoice (room + 2) (space ++ (cs ++ rest)) =
      (paramsOfValue k (.object ms)).map (·, rest) := by
  cases h with
  | scalar hv => cases hv
  | @object _ es cs hform hes hcs =>
    -- Two members come from two entries, and the orders differ in nothing else.
    have hpair : ∀ {m m' : String × Value}, es.map Entry.member = [m, m'] →
        ∃ e e', es = [e, e'] ∧ e.member = m ∧ e'.member = m' := by
      intro m m' h
      obtain ⟨e, es', rfl, he, h⟩ := List.map_eq_cons_iff.mp h
      obtain ⟨e', es'', rfl, he', h⟩ := List.map_eq_cons_iff.mp h
      obtain rfl := List.map_eq_nil_iff.mp h
      exact ⟨e, e', rfl, he, he'⟩
    rcases hmembers with h | h
    · obtain ⟨e, e', rfl, hkind, hparams⟩ := hpair h
      obtain ⟨he, hform⟩ := List.forall_mem_cons.mp hform
      obtain ⟨hv, hes⟩ := List.forall_mem_cons.mp hes
      have he' := List.forall_mem_singleton.mp hform
      have hv' := List.forall_mem_singleton.mp hes
      exact readChoice_of_entries he he' hcs hspace
        (fun xs _ => readMember_kind_first he hkind hv)
        fun xs => readMember_params_second he' hparams hv' hkeys
    · obtain ⟨e, e', rfl, hparams, hkind⟩ := hpair h
      obtain ⟨he, hform⟩ := List.forall_mem_cons.mp hform
      obtain ⟨hv, hes⟩ := List.forall_mem_cons.mp hes
      have he' := List.forall_mem_singleton.mp hform
      have hv' := List.forall_mem_singleton.mp hes
      exact readChoice_of_entries he he' hcs hspace
        (fun xs hxs => readMember_params_first he hparams hv hxs)
        fun xs => readMember_kind_second he' hkind hv' _

end Texts

/-! ## §2 Choices -/

namespace Choice

/-- The choice with the numbers that are read from their texts. -/
def reread : Choice → Choice
  | largeSample p =>
    largeSample
      { confidence := Json.reread p.confidence
        lower := rereadOption p.lower
        upper := rereadOption p.upper }
  | conservative p =>
    conservative
      { confidence := Json.reread p.confidence
        lower := Json.reread p.lower
        upper := Json.reread p.upper }
  | deterministic p =>
    deterministic
      { confidence := Json.reread p.confidence
        lower := Json.reread p.lower
        upper := Json.reread p.upper
        plannedSamples := p.plannedSamples }

/-- Whether all numbers that have to be there are finite. -/
def isFinite : Choice → Bool
  | largeSample p => p.confidence.isFinite
  | conservative p => p.confidence.isFinite && p.lower.isFinite && p.upper.isFinite
  | deterministic p => p.confidence.isFinite && p.lower.isFinite && p.upper.isFinite

/-- Each number that has to be there has to be finite to be taken again. -/
theorem reread_toRow (c : Choice) :
    (Row.reread c.kind.fields c.toRow).map (ofRow c.kind) =
      if c.isFinite then .ok c.reread else unfit (.wrongType .null "f64") := by
  -- Each choice is a row of these two readings; the first that fails ends it, with the same fault.
  let number (x : Float) := Scalar.number.ofValue (Scalar.number.toValue x).reread
  let option (x : Option Float) :=
    Scalar.optionalNumber.ofValue (Scalar.optionalNumber.toValue x).reread
  have hnumber : ∀ x, number x =
      if x.isFinite then .ok (Json.reread x) else unfit (.wrongType .null "f64") :=
    Scalar.ofValue_reread_number
  have hoption : ∀ x, option x = .ok (rereadOption x) := Scalar.ofValue_reread_optionalNumber
  cases c with
  | largeSample p =>
    change ((number p.confidence >>= fun confidence =>
      (option p.lower >>= fun lower => (option p.upper >>= fun upper => pure (upper, ())) >>=
        fun row => pure (lower, row)) >>= fun row => pure (confidence, row)).map _) = _
    rw [hnumber, hoption, hoption, isFinite]
    cases p.confidence.isFinite <;> rfl
  | conservative p =>
    change ((number p.confidence >>= fun confidence =>
      (number p.lower >>= fun lower => (number p.upper >>= fun upper => pure (upper, ())) >>=
        fun row => pure (lower, row)) >>= fun row => pure (confidence, row)).map _) = _
    rw [hnumber, hnumber, hnumber, isFinite]
    cases p.confidence.isFinite <;> cases p.lower.isFinite <;> cases p.upper.isFinite <;> rfl
  | deterministic p =>
    change ((number p.confidence >>= fun confidence =>
      (number p.lower >>= fun lower => (number p.upper >>= fun upper =>
        pure (upper, p.plannedSamples, ())) >>=
          fun row => pure (lower, row)) >>= fun row => pure (confidence, row)).map _) = _
    rw [hnumber, hnumber, hnumber, isFinite]
    cases p.confidence.isFinite <;> cases p.lower.isFinite <;> cases p.upper.isFinite <;> rfl

/-- The planned count is one of 64 bits. -/
def FitsWord : Choice → Prop
  | deterministic p => p.plannedSamples < 2 ^ 64
  | _ => True

private theorem fits_ofOption (x : Option Float) (room : ℕ) :
    (Value.ofOption Value.ofFloat x).Fits room := by
  cases x with
  | none => exact .null
  | some x => exact .number trivial

theorem fits_params {c : Choice} (hword : c.FitsWord) (room : ℕ) :
    (Row.toValue c.kind.fields c.toRow).Fits (room + 1) := by
  have hnumber : ∀ x : Float, (Value.ofFloat x).Fits room := fun x => .number trivial
  refine .object fun m hm => ?_
  cases c with
  | largeSample p =>
    rcases hm with _ | ⟨_, _ | ⟨_, _ | ⟨_, hm⟩⟩⟩
    · exact hnumber p.confidence
    · exact fits_ofOption p.lower room
    · exact fits_ofOption p.upper room
    · cases hm
  | conservative p =>
    rcases hm with _ | ⟨_, _ | ⟨_, _ | ⟨_, hm⟩⟩⟩
    · exact hnumber p.confidence
    · exact hnumber p.lower
    · exact hnumber p.upper
    · cases hm
  | deterministic p =>
    rcases hm with _ | ⟨_, _ | ⟨_, _ | ⟨_, _ | ⟨_, hm⟩⟩⟩⟩
    · exact hnumber p.confidence
    · exact hnumber p.lower
    · exact hnumber p.upper
    · exact .number hword
    · cases hm

/-- **The text of a choice is read** exactly if the numbers that have to be there are finite. -/
theorem parse_text (l : TreeLayout) {c : Choice} (hword : c.FitsWord) {level : ℕ} {text : String}
    (htext : text.toList = l.text level c.toValue) :
    parse text = if c.isFinite then .ok c.reread else unfit (.wrongType .null "f64") := by
  have hfits : c.toValue.Fits greatestDepth :=
    .object (List.forall_mem_cons.mpr ⟨.string c.kind.name,
      List.forall_mem_singleton.mpr (fits_params hword _)⟩)
  have hkeys : ∀ m ∈ Value.rereadMembers (Row.members c.kind.fields c.toRow),
      m.1 ∈ c.kind.fields.map Field.name := fun m hm => key_of_mem_rereadMembers hm
  have hread : readChoice greatestDepth text.toList =
      (paramsOfValue c.kind (Row.toValue c.kind.fields c.toRow).reread).map (·, []) := by
    rw [htext, ← List.append_nil (l.text level c.toValue)]
    exact readChoice_of_isText (Or.inl rfl) (l.isText_text hfits) hkeys isSpace_nil
  rw [paramsOfValue, toRow_reread (nodup_names c.kind), reread_toRow] at hread
  exact readWhole_of_isSpace hread isSpace_nil

theorem parse_compact {c : Choice} (hword : c.FitsWord) :
    parse c.toValue.compact =
      if c.isFinite then .ok c.reread else unfit (.wrongType .null "f64") :=
  have htext : ∀ v : Value, v.compact.toList = Value.compactLayout.text 0 v := fun _ => rfl
  parse_text Value.compactLayout hword (htext c.toValue)

end Choice

end OnlineAggregation.Config
