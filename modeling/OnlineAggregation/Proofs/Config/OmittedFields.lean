import OnlineAggregation.Config.Loader
import OnlineAggregation.Proofs.Config.ReadBack
import OnlineAggregation.Proofs.Json.Draft

/-!
# Leaving out parameters

A user may leave out any parameter and write the others in any order, before the kind or after it.
Main statement: every text of such a choice is read, each parameter that is given has the value of
its number, and each of the others has its default.
-/

namespace OnlineAggregation.Config

open Json

/-! ## §1 What is given -/

/-- The number that members give under a name, if they give one. -/
def givenNumber (ms : List (String × Value)) (name : String) : Option Number :=
  match ms.lookup name with
  | some (.number n) => some n
  | _ => none

/-- The number that members give under a name, or the default. -/
def givenFloat (ms : List (String × Value)) (name : String) (default : Float) : Float :=
  ((givenNumber ms name).map Number.toFloat).getD default

/-- The end that members give under a name; `null` gives none. -/
def givenEnd (ms : List (String × Value)) (name : String) : Option Float :=
  (givenNumber ms name).map Number.toFloat

/-- The count that members give under a name, or the default. -/
def givenCount (ms : List (String × Value)) (name : String) (default : ℕ) : ℕ :=
  match givenNumber ms name with
  | some (.natural n) => n
  | _ => default

/-- The choice of a kind with the parameters that members give. -/
def Choice.given (ms : List (String × Value)) : Kind → Choice
  | .largeSample =>
    largeSample
      { confidence := givenFloat ms "confidence" 0.95
        lower := givenEnd ms "lower"
        upper := givenEnd ms "upper" }
  | .conservative =>
    conservative
      { confidence := givenFloat ms "confidence" 0.95
        lower := givenFloat ms "lower" 0.0
        upper := givenFloat ms "upper" 1.0 }
  | .deterministic =>
    deterministic
      { confidence := givenFloat ms "confidence" 0.95
        lower := givenFloat ms "lower" 0.0
        upper := givenFloat ms "upper" 1.0
        plannedSamples := givenCount ms "planned_samples" 1000 }

/-- Whether a kind has a parameter of this name that takes this value. -/
def Kind.Takes (k : Kind) (m : String × Value) : Prop :=
  ∃ s ∈ k.settings, s.name = m.1 ∧ s.scalar.Takes m.2

section Given

variable {ms ms' : List (String × Value)} {k : Kind}

theorem Kind.Takes.belongs {m : String × Value} (h : k.Takes m) : Belongs k.fields m := by
  obtain ⟨s, hs, hname, htakes⟩ := h
  exact ⟨s.field, List.mem_map_of_mem hs, hname, Scalar.exists_ofValue_iff.mpr htakes⟩

theorem Choice.given_perm (h : ms'.Perm ms) (hkeys : (ms.map Prod.fst).Nodup) :
    Choice.given ms' k = Choice.given ms k := by
  have hnumber : ∀ name, givenNumber ms' name = givenNumber ms name := fun name => by
    rw [givenNumber, givenNumber, lookup_perm h hkeys]
  cases k <;> simp only [given, givenFloat, givenEnd, givenCount, hnumber]

theorem Choice.given_nil : Choice.given [] k = defaultFor k := by
  cases k <;> rfl

/-- The row of a draft of settings, with defaults for what is missing. -/
def filled : (settings : List Setting) → Draft (settings.map Setting.field) →
    Row (settings.map Setting.field)
  | [], _ => ()
  | s :: settings, (slot, draft) => (slot.getD s.default, filled settings draft)

/-- No parameter has to be there. -/
theorem complete_eq_filled (settings : List Setting) (draft : Draft (settings.map Setting.field)) :
    draft.complete (settings.map Setting.field) = .ok (filled settings draft) := by
  induction settings with
  | nil => rfl
  | cons s settings ih =>
    obtain ⟨slot, draft⟩ := draft
    cases slot with
    | none =>
      change (Draft.complete (settings.map Setting.field) draft >>= fun row =>
        pure (s.default, row)) = _
      rw [ih]
      rfl
    | some a =>
      change (Draft.complete (settings.map Setting.field) draft >>= fun row => pure (a, row)) = _
      rw [ih]
      rfl

theorem getD_given_number (name : String) (default? : Option Float) (d : Float) :
    ((Json.Field.mk name .number default?).given ms).getD d = givenFloat ms name d := by
  rw [Field.given, givenFloat, givenNumber]
  cases ms.lookup name with
  | none => rfl
  | some v => cases v <;> rfl

theorem getD_given_optionalNumber (name : String) (default? : Option (Option Float)) :
    ((Json.Field.mk name .optionalNumber default?).given ms).getD none = givenEnd ms name := by
  rw [Field.given, givenEnd, givenNumber]
  cases ms.lookup name with
  | none => rfl
  | some v => cases v <;> rfl

theorem getD_given_natural (name : String) (default? : Option ℕ) (d : ℕ) :
    ((Json.Field.mk name .natural default?).given ms).getD d = givenCount ms name d := by
  rw [Field.given, givenCount, givenNumber]
  cases ms.lookup name with
  | none => rfl
  | some v =>
    cases v with
    | number n => cases n <;> rfl
    | _ => rfl

/-- Each parameter has the value that is given or its default. -/
theorem ofRow_filled_given (ms : List (String × Value)) (k : Kind) :
    Choice.ofRow k (filled k.settings (Draft.given k.fields ms)) = Choice.given ms k := by
  cases k with
  | largeSample =>
    change Choice.largeSample
      { confidence := ((Json.Field.mk "confidence" .number (some 0.95)).given ms).getD 0.95
        lower := ((Json.Field.mk "lower" .optionalNumber (some none)).given ms).getD none
        upper := ((Json.Field.mk "upper" .optionalNumber (some none)).given ms).getD none } = _
    rw [getD_given_number, getD_given_optionalNumber, getD_given_optionalNumber]
    rfl
  | conservative =>
    change Choice.conservative
      { confidence := ((Json.Field.mk "confidence" .number (some 0.95)).given ms).getD 0.95
        lower := ((Json.Field.mk "lower" .number (some 0.0)).given ms).getD 0.0
        upper := ((Json.Field.mk "upper" .number (some 1.0)).given ms).getD 1.0 } = _
    rw [getD_given_number, getD_given_number, getD_given_number]
    rfl
  | deterministic =>
    change Choice.deterministic
      { confidence := ((Json.Field.mk "confidence" .number (some 0.95)).given ms).getD 0.95
        lower := ((Json.Field.mk "lower" .number (some 0.0)).given ms).getD 0.0
        upper := ((Json.Field.mk "upper" .number (some 1.0)).given ms).getD 1.0
        plannedSamples :=
          ((Json.Field.mk "planned_samples" .natural (some 1000)).given ms).getD 1000 } = _
    rw [getD_given_number, getD_given_number, getD_given_number, getD_given_natural]
    rfl

/-- **Parameters are taken from a tree** in any order, with defaults for those left out. -/
theorem paramsOfValue_eq_given (htakes : ∀ m ∈ ms, k.Takes m) (hkeys : (ms.map Prod.fst).Nodup) :
    paramsOfValue k (.object ms) = .ok (Choice.given ms k) := by
  have hbelongs : ∀ m ∈ ms, Belongs k.fields m := fun m hm => (htakes m hm).belongs
  have hcomplete : (Draft.given k.fields ms).complete k.fields =
      .ok (filled k.settings (Draft.given k.fields ms)) :=
    complete_eq_filled k.settings _
  rw [paramsOfValue, toRow_eq_complete_given _ (nodup_names k) hkeys hbelongs, hcomplete,
    ← ofRow_filled_given]
  rfl

end Given

/-! ## §2 Choices -/

/-- A file that holds a text is loaded as the text is parsed. -/
theorem loadChoice_toUTF8 (text : String) :
    loadChoice (some text.toUTF8) = (Choice.parse text).mapError .parse := by
  have hvalid : text.toUTF8.IsValidUTF8 := text.isValidUTF8
  have htext : String.fromUTF8? text.toUTF8 = some text := dif_pos hvalid
  rw [loadChoice, readText, htext]
  rfl

namespace Choice

variable {k : Kind} {ms ms' members : List (String × Value)} {text : String}

/-- **Parameters may be left out, and the order does not matter.** Of every object with a kind and
its parameters, in either order, any text is read as the choice of this kind in which each parameter
that is given, in any order, has the value of its number, and each of the others has its default.
Without parameters this is the default choice of the kind. -/
theorem parse_eq_given (htakes : ∀ m ∈ ms, k.Takes m) (hkeys : (ms.map Prod.fst).Nodup)
    (horder : ms'.Perm ms)
    (hmembers : members = [("type", .string k.name), ("params", .object ms')] ∨
      members = [("params", .object ms'), ("type", .string k.name)])
    (htext : IsWholeText (.object members) text) :
    parse text = .ok (given ms k) ∧ loadChoice (some text.toUTF8) = .ok (given ms k) ∧
      (ms = [] → given ms k = defaultFor k) := by
  have htakes' : ∀ m ∈ ms', k.Takes m := fun m hm => htakes m (horder.subset hm)
  have hkeys' : (ms'.map Prod.fst).Nodup := (horder.map Prod.fst).nodup_iff.mpr hkeys
  have hparams : paramsOfValue k (.object ms') = .ok (given ms k) := by
    rw [paramsOfValue_eq_given htakes' hkeys', given_perm horder hkeys]
  obtain ⟨before, cs, after, hbefore, hcs, hafter, heq⟩ := htext
  have hparse : parse text = .ok (given ms k) := by
    refine readWhole_of_isSpace ?_ hafter
    rw [heq, ← hparams]
    exact readChoice_of_isText hmembers hcs (fun m hm => (htakes' m hm).belongs.mem_names) hbefore
  refine ⟨hparse, ?_, ?_⟩
  · rw [loadChoice_toUTF8, hparse]
    rfl
  · rintro rfl
    exact given_nil

/-- The member for an upper end, written with an exponent. -/
private def upperEntry : Entry :=
  { key := "upper", value := .number (.float 5.0), keyText := "upper".toList ++ ['"'], gap := []
    space := [], valueText := ['5', 'e', '0'] }

/-- The member for parameters with this end only. -/
private def paramsEntry : Entry :=
  { key := "params", value := .object [upperEntry.member], keyText := "params".toList ++ ['"']
    gap := [' '], space := []
    valueText := '\x7b' :: (([] ++ (upperEntry.text ++ [' '])) ++ ['\x7d']) }

/-- The member for a kind. -/
private def typeEntry : Entry :=
  { key := "type", value := .string "deterministic", keyText := "type".toList ++ ['"'], gap := []
    space := [' '], valueText := '"' :: ("deterministic".toList ++ ['"']) }

/-- With the parameters first, and only an upper end among them. -/
theorem parse_eq_given_upper :
    parse "\x7b \"params\" :\x7b\"upper\":5e0 \x7d,\"type\": \"deterministic\"\x7d" =
      .ok (deterministic ⟨0.95, 0.0, 5.0, 1000⟩) := by
  have hblank : IsSpace [' '] := isSpace_singleton rfl
  have hliteral : IsLiteral ['5', 'e', '0'] :=
    @IsLiteral.parts ['5'] [] ['e', '0'] ⟨isDigits_cons.mpr ⟨rfl, isDigits_nil⟩, by decide, nofun⟩
      .none (.mark (Or.inl rfl) (Or.inl rfl) (isDigits_cons.mpr ⟨rfl, isDigits_nil⟩) (by decide))
  have hupper : upperEntry.IsWellFormed :=
    ⟨isStringText_of_plain (by simp [upperEntry]), isSpace_nil, isSpace_nil⟩
  have hparams : paramsEntry.IsWellFormed :=
    ⟨isStringText_of_plain (by simp [paramsEntry]), hblank, isSpace_nil⟩
  have htype : typeEntry.IsWellFormed :=
    ⟨isStringText_of_plain (by simp [typeEntry]), isSpace_nil, hblank⟩
  have hvalue : IsText 126 paramsEntry.value paramsEntry.valueText :=
    @IsText.object 125 [upperEntry] _ (List.forall_mem_singleton.mpr hupper)
      (List.forall_mem_singleton.mpr (.scalar (.number hliteral (by decide))))
      (.last isSpace_nil hblank)
  have hname : IsText 126 typeEntry.value typeEntry.valueText :=
    .scalar (.string (isStringText_of_plain (by simp)))
  have hchoice : IsText 127 (.object [paramsEntry.member, typeEntry.member])
      ('\x7b' :: (([' '] ++ (paramsEntry.text ++ ([] ++ ',' :: ([] ++ (typeEntry.text ++ []))))) ++
        ['\x7d'])) :=
    @IsText.object 126 [paramsEntry, typeEntry] _
      (List.forall_mem_cons.mpr ⟨hparams, List.forall_mem_singleton.mpr htype⟩)
      (List.forall_mem_cons.mpr ⟨hvalue, List.forall_mem_singleton.mpr hname⟩)
      (.cons hblank isSpace_nil (List.cons_ne_nil _ _) (.last isSpace_nil isSpace_nil))
  have htakes : ∀ m ∈ [upperEntry.member], Kind.deterministic.Takes m :=
    List.forall_mem_singleton.mpr ⟨upperSetting, by simp [Kind.settings], rfl, .number _⟩
  have hparse := @parse_eq_given .deterministic [upperEntry.member] [upperEntry.member] _
    "\x7b \"params\" :\x7b\"upper\":5e0 \x7d,\"type\": \"deterministic\"\x7d" htakes
    (List.nodup_singleton _) (List.Perm.refl _) (Or.inr rfl)
    ⟨[], _, [], isSpace_nil, hchoice, isSpace_nil, by decide +kernel⟩
  exact hparse.1

end Choice

end OnlineAggregation.Config
