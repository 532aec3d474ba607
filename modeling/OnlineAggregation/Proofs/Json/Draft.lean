import OnlineAggregation.Proofs.Json.Record

/-!
# Members in any order

A record is put together from members that come in any order and need not be all there. Main
statement: if no key is repeated and each member belongs to a field that takes its value, every
field gets the value that is given under its name, and the others stay empty; so the order of the
members does not matter.
-/

namespace OnlineAggregation.Json

/-! ## §1 What members give -/

section Lookup

variable {ms ms' : List (String × Value)} {key : String}

/-- If no key is repeated, every member is found under its key. -/
theorem lookup_of_mem (hkeys : (ms.map Prod.fst).Nodup) {m : String × Value} (hm : m ∈ ms) :
    ms.lookup m.1 = some m.2 := by
  obtain ⟨before, after, rfl⟩ := List.append_of_mem hm
  refine List.lookup_eq_some_iff.mpr ⟨before, after, rfl, fun p hp => ?_⟩
  rw [List.map_append, List.map_cons, List.nodup_append] at hkeys
  exact bne_iff_ne.mpr
    (hkeys.2.2 p.1 (List.mem_map_of_mem hp) m.1 List.mem_cons_self).symm

/-- If no key is repeated, the order does not matter. -/
theorem lookup_perm (h : ms'.Perm ms) (hkeys : (ms.map Prod.fst).Nodup) :
    ms'.lookup key = ms.lookup key := by
  cases hfound : ms'.lookup key with
  | some v =>
    obtain ⟨before, after, rfl, -⟩ := List.lookup_eq_some_iff.mp hfound
    exact (lookup_of_mem hkeys (h.subset (List.mem_append_right _ List.mem_cons_self))).symm
  | none =>
    rw [List.lookup_eq_none_iff] at hfound
    exact (List.lookup_eq_none_iff.mpr fun p hp => hfound p (h.symm.subset hp)).symm

theorem lookup_append_singleton {m : String × Value} (hnew : m.1 ∉ ms.map Prod.fst) :
    (ms ++ [m]).lookup key = if key = m.1 then some m.2 else ms.lookup key := by
  obtain ⟨k, v⟩ := m
  rw [List.lookup_append, List.lookup_cons]
  split_ifs with hkey
  · have hnone : ms.lookup key = none := by
      refine List.lookup_eq_none_iff.mpr fun p hp => bne_iff_ne.mpr ?_
      rintro rfl
      exact hnew (hkey ▸ List.mem_map_of_mem hp)
    rw [hnone, hkey, beq_self_eq_true]
    rfl
  · rw [beq_eq_false_iff_ne.mpr hkey]
    exact Option.or_none

end Lookup

/-- The values that a field takes: any number, but only a whole one of 64 bits for a count, and also
`null` where a number may be missing. -/
inductive Scalar.Takes : Scalar → Value → Prop where
  | number (n : Number) : Takes .number (.number n)
  | some (n : Number) : Takes .optionalNumber (.number n)
  | none : Takes .optionalNumber .null
  | natural (n : ℕ) : Takes .natural (.number (.natural n))

theorem Scalar.exists_ofValue_iff {s : Scalar} {v : Value} :
    (∃ a, s.ofValue v = .ok a) ↔ s.Takes v := by
  constructor
  · rintro ⟨a, ha⟩
    cases v with
    | number n =>
      cases s with
      | number => exact .number n
      | optionalNumber => exact .some n
      | natural =>
        cases n with
        | natural n => exact .natural n
        | negative n => cases ha
        | float x => cases ha
    | null =>
      cases s with
      | optionalNumber => exact .none
      | number => cases ha
      | natural => cases ha
    | bool b => cases s <;> cases ha
    | string t => cases s <;> cases ha
    | array vs => cases s <;> cases ha
    | object ms => cases s <;> cases ha
  · rintro (n | n | _ | n)
    · exact ⟨n.toFloat, rfl⟩
    · exact ⟨Option.some n.toFloat, rfl⟩
    · exact ⟨Option.none, rfl⟩
    · exact ⟨n, rfl⟩

/-- The value that members give to a field, if they give one that it takes. -/
def Field.given (f : Field) (ms : List (String × Value)) : Option f.scalar.Carrier :=
  (ms.lookup f.name).bind fun v => (f.scalar.ofValue v).toOption

/-- The values that members give to the fields. -/
def Draft.given : (fs : List Field) → List (String × Value) → Draft fs
  | [], _ => ()
  | f :: fs, ms => (f.given ms, Draft.given fs ms)

/-- A member belongs to a field that takes its value. -/
def Belongs (fs : List Field) (m : String × Value) : Prop :=
  ∃ f ∈ fs, f.name = m.1 ∧ ∃ a, f.scalar.ofValue m.2 = .ok a

/-! ## §2 Taking members in -/

section Members

variable {f : Field} {fs : List Field} {ms ms' : List (String × Value)} {m : String × Value}

theorem Belongs.mem_names (h : Belongs fs m) : m.1 ∈ fs.map Field.name := by
  obtain ⟨f, hf, hname, -⟩ := h
  exact hname ▸ List.mem_map_of_mem hf

theorem given_nil : Draft.given fs [] = Draft.empty fs := by
  induction fs with
  | nil => rfl
  | cons f fs ih => rw [Draft.given, Draft.empty, ih]; rfl

theorem Field.given_of_ne (hnew : m.1 ∉ ms.map Prod.fst) (hname : f.name ≠ m.1) :
    f.given (ms ++ [m]) = f.given ms := by
  rw [given, lookup_append_singleton hnew, if_neg hname]
  rfl

/-- A member of another name changes nothing. -/
theorem given_of_notMem (hnew : m.1 ∉ ms.map Prod.fst) (hnames : m.1 ∉ fs.map Field.name) :
    Draft.given fs (ms ++ [m]) = Draft.given fs ms := by
  induction fs with
  | nil => rfl
  | cons f fs ih =>
    rw [List.map_cons, List.mem_cons, not_or] at hnames
    rw [Draft.given, Draft.given, Field.given_of_ne hnew (Ne.symm hnames.1), ih hnames.2]

/-- One more member gives its value to its field. -/
theorem membersToDraft_given (hfields : (fs.map Field.name).Nodup)
    (hnew : m.1 ∉ ms.map Prod.fst) (hm : Belongs fs m) :
    membersToDraft fs (Draft.given fs ms) [m] = .ok (Draft.given fs (ms ++ [m])) := by
  induction fs with
  | nil =>
    obtain ⟨f, hf, -⟩ := hm
    cases hf
  | cons f fs ih =>
    obtain ⟨hothers, hfields⟩ := List.nodup_cons.mp hfields
    obtain ⟨g, hg, hname, a, ha⟩ := hm
    by_cases hfirst : f.name = m.1
    · -- The names of the fields differ, so this is the field that takes the value.
      obtain rfl : g = f := by
        refine (List.mem_cons.mp hg).resolve_right fun hg => hothers ?_
        exact hfirst ▸ hname ▸ List.mem_map_of_mem hg
      have hempty : g.given ms = none := by
        have hnone : ms.lookup g.name = none := by
          refine List.lookup_eq_none_iff.mpr fun p hp => bne_iff_ne.mpr fun heq => hnew ?_
          exact hname ▸ heq ▸ List.mem_map_of_mem hp
        rw [Field.given, hnone]
        rfl
      have hfull : g.given (ms ++ [m]) = some a := by
        rw [Field.given, lookup_append_singleton hnew, if_pos hname]
        change (g.scalar.ofValue m.2).toOption = some a
        rw [ha]
        rfl
      rw [Draft.given, Draft.given, hempty, hfull, given_of_notMem hnew (hname ▸ hothers),
        membersToDraft, Draft.put?_vacant hname, ha]
      rfl
    · have hm : Belongs fs m := by
        refine ⟨g, (List.mem_cons.mp hg).resolve_left ?_, hname, a, ha⟩
        rintro rfl
        exact hfirst hname
      rw [Draft.given, Draft.given, membersToDraft_of_ne, ih hfields hm,
        Field.given_of_ne hnew hfirst]
      · rfl
      · intro p hp
        rw [List.mem_singleton.mp hp]
        exact Ne.symm hfirst

/-- **Members give their values to their fields**, whatever their order. -/
theorem membersToDraft_eq_given (hfields : (fs.map Field.name).Nodup)
    (hkeys : (ms.map Prod.fst).Nodup) (hms : ∀ m ∈ ms, Belongs fs m) :
    membersToDraft fs (Draft.empty fs) ms = .ok (Draft.given fs ms) := by
  have hrun : ∀ after before, before ++ after = ms →
      membersToDraft fs (Draft.given fs before) after = .ok (Draft.given fs ms) := by
    intro after
    induction after with
    | nil =>
      intro before heq
      rw [← heq, List.append_nil]
      rfl
    | cons m after ih =>
      intro before heq
      have hnew : m.1 ∉ before.map Prod.fst := by
        rw [← heq, List.map_append, List.map_cons, List.nodup_append] at hkeys
        exact fun hmem => hkeys.2.2 m.1 hmem m.1 List.mem_cons_self rfl
      have hm : Belongs fs m :=
        hms m (heq ▸ List.mem_append_right _ List.mem_cons_self)
      rw [membersToDraft_cons, membersToDraft_given hfields hnew hm]
      exact ih (before ++ [m]) (by rw [← heq, List.append_assoc]; rfl)
  rw [← given_nil]
  exact hrun ms [] rfl

/-- A record is made of the values that are given and the defaults of the other fields. -/
theorem toRow_eq_complete_given (title : String) (hfields : (fs.map Field.name).Nodup)
    (hkeys : (ms.map Prod.fst).Nodup) (hms : ∀ m ∈ ms, Belongs fs m) :
    (Value.object ms).toRow title fs = (Draft.given fs ms).complete fs := by
  rw [Value.toRow, membersToDraft_eq_given hfields hkeys hms]
  rfl

end Members

end OnlineAggregation.Json
