import OnlineAggregation.Proofs.Bound.HalfWidth
import OnlineAggregation.Proofs.Config.Building
import OnlineAggregation.Proofs.Config.ReadBack
import OnlineAggregation.Proofs.Json.RereadError

/-!
# Reloading choices

A choice that is saved and loaded again is of the same kind, but it need not be as valid as it was.
Main statement: validity changes exactly if ends that were given are lost, since none of them is
finite, or if two ends change their order, which only ends that nearly agree can do, or if the
confidence is the last number before one, which is read as one.
-/

namespace OnlineAggregation.Config.Choice

open Binary64
open Json (rereadOption rereadOption_some belowOne)
open Numeric (NaturalLog)

/-! ## §1 Ends -/

/-- Ends were given, but none of them as a finite number. -/
def EndsLost (lower upper : Option Float) : Prop :=
  (lower ≠ none ∨ upper ≠ none) ∧
    (∀ x ∈ lower, x.isFinite = false) ∧ ∀ y ∈ upper, y.isFinite = false

/-- Two finite ends are read in another order than that in which they were given. -/
def EndsTurned (lower upper : Option Float) : Prop :=
  ∃ x ∈ lower, ∃ y ∈ upper, x.isFinite = true ∧ y.isFinite = true ∧
    ¬ (Json.reread y < Json.reread x ↔ y < x)

section Ends

variable {lower upper : Option Float} {x y : Float}

/-- Of finite numbers only the order matters. -/
theorem endsOfDomain_iff (hx : x.isFinite = true) (hy : y.isFinite = true) :
    EndsOfDomain x y ↔ ¬ y < x :=
  ⟨fun h => h.ordered, fun h => ⟨hx, hy, h⟩⟩

/-- Ends fit after they were read as they did before, unless they are lost or turned. -/
theorem endsFit_reread_iff :
    (EndsFit (rereadOption lower) (rereadOption upper) ↔ EndsFit lower upper) ↔
      ¬ (EndsLost lower upper ∨ EndsTurned lower upper) := by
  cases lower with
  | none =>
    cases upper with
    | none => simp [EndsFit, EndsLost, EndsTurned]
    | some y =>
      cases hy : y.isFinite <;> simp [rereadOption_some, EndsFit, EndsLost, EndsTurned, hy]
  | some x =>
    cases upper with
    | none =>
      cases hx : x.isFinite <;> simp [rereadOption_some, EndsFit, EndsLost, EndsTurned, hx]
    | some y =>
      have hnot : ¬ (x.isFinite = true ∧ y.isFinite = true) → ¬ EndsOfDomain x y := fun h h' =>
        h ⟨h'.lower_finite, h'.upper_finite⟩
      cases hx : x.isFinite <;> cases hy : y.isFinite
      · simp [rereadOption_some, EndsFit, EndsLost, EndsTurned, hx, hy, hnot]
      · simp [rereadOption_some, EndsFit, EndsLost, EndsTurned, hx, hy, hnot]
      · simp [rereadOption_some, EndsFit, EndsLost, EndsTurned, hx, hy, hnot]
      · have hread := endsOfDomain_iff (Json.isFinite_reread hx) (Json.isFinite_reread hy)
        simp [rereadOption_some, EndsFit, EndsLost, EndsTurned, hx, hy, hread,
          endsOfDomain_iff hx hy]
        exact not_iff_not

/-- Only ends that nearly agree are turned. -/
theorem EndsTurned.exists_near (h : EndsTurned lower upper) :
    ∃ x ∈ lower, ∃ y ∈ upper, ∃ r s : ℝ, Reads x r ∧ Reads y s ∧ r ≠ s ∧
      |r - s| ≤ 2 ^ (-48 : ℤ) * max |r| |s| + 2 ^ (-1071 : ℤ) := by
  obtain ⟨x, hx, y, hy, hxfinite, hyfinite, hturned⟩ := h
  obtain ⟨r, hr⟩ := isFinite_iff_exists_reads.mp hxfinite
  obtain ⟨s, hs⟩ := isFinite_iff_exists_reads.mp hyfinite
  have hnear := mt (Json.reread_lt_iff hs hr) hturned
  rw [not_or, not_lt, max_comm, abs_sub_comm] at hnear
  exact ⟨x, hx, y, hy, r, s, hr, hs, Ne.symm hnear.1, hnear.2⟩

end Ends

/-! ## §2 Choices -/

section Choices

variable {c : Choice}

theorem isFinite_confidence (h : c.isFinite = true) : c.confidence.isFinite = true := by
  cases c <;> simp_all [isFinite, confidence]

/-- What is read from the text of a choice, parameter by parameter. -/
theorem reread_settings (h : c.isFinite = true) :
    c.reread.kind = c.kind ∧ c.reread.confidence = Json.reread c.confidence ∧
      c.reread.lower? = rereadOption c.lower? ∧ c.reread.upper? = rereadOption c.upper? ∧
      c.reread.planned? = c.planned? := by
  cases c with
  | largeSample p => exact ⟨rfl, rfl, rfl, rfl, rfl⟩
  | conservative p =>
    simp only [isFinite, Bool.and_eq_true] at h
    simp [reread, kind, confidence, lower?, upper?, planned?, rereadOption_some, h]
  | deterministic p =>
    simp only [isFinite, Bool.and_eq_true] at h
    simp [reread, kind, confidence, lower?, upper?, planned?, rereadOption_some, h]

/-- What makes a valid choice invalid or an invalid one valid when it is reloaded: the ends are lost
or turned while all else is as it should be, or the confidence becomes one. -/
def ValidityChanges (c : Choice) : Prop :=
  c.planned? ≠ some 0 ∧
    ((0.0 < c.confidence ∧ c.confidence < belowOne ∧
        (EndsLost c.lower? c.upper? ∨ EndsTurned c.lower? c.upper?)) ∨
      ((c.confidence == belowOne) = true ∧ EndsFit c.lower? c.upper?))

/-- A finite confidence is below the last number before one, or is that number, or is not below
one; only the second is read on another side of one. -/
theorem confidence_cases {x : Float} (hx : x.isFinite = true) :
    (x < belowOne ∧ x < 1.0 ∧ (x == belowOne) = false) ∨
      (¬ x < belowOne ∧ x < 1.0 ∧ 0.0 < x ∧ (x == belowOne) = true) ∨
      (¬ x < belowOne ∧ ¬ x < 1.0 ∧ (x == belowOne) = false) := by
  obtain ⟨r, hr⟩ := isFinite_iff_exists_reads.mp hx
  have hbeq := Json.beq_belowOne_iff hx
  by_cases hbelow : x < belowOne
  · have hone : x < 1.0 := by
      rw [hr.lt_iff Json.reads_belowOne, EReal.coe_lt_coe_iff] at hbelow
      rw [hr.lt_iff reads_literal_one, EReal.coe_lt_coe_iff]
      exact hbelow.trans (by norm_num)
    exact Or.inl ⟨hbelow, hone, by simp_all⟩
  by_cases hone : x < 1.0
  · have hpos : 0.0 < x := by
      rw [hr.lt_iff Json.reads_belowOne, EReal.coe_lt_coe_iff] at hbelow
      rw [reads_zero.lt_iff hr, EReal.coe_pos]
      exact lt_of_lt_of_le (by norm_num) (not_lt.mp hbelow)
    exact Or.inr (Or.inl ⟨hbelow, hone, hpos, hbeq.mpr ⟨hone, hbelow⟩⟩)
  · exact Or.inr (Or.inr ⟨hbelow, hone, by simp_all⟩)

theorem isValid_reread_iff (h : c.isFinite = true) :
    (c.reread.IsValid ↔ c.IsValid) ↔ ¬ c.ValidityChanges := by
  have hvalid : ∀ c : Choice, c.IsValid ↔ 0.0 < c.confidence ∧ c.confidence < 1.0 ∧
      EndsFit c.lower? c.upper? ∧ c.planned? ≠ some 0 := fun c =>
    ⟨fun h => ⟨h.positive, h.below_one, h.ends, h.planned⟩,
      fun ⟨hpositive, hbelow, hends, hplanned⟩ => ⟨hpositive, hbelow, hends, hplanned⟩⟩
  have hfinite := isFinite_confidence h
  obtain ⟨-, hconfidence, hlower, hupper, hplanned⟩ := reread_settings h
  have hends := @endsFit_reread_iff c.lower? c.upper?
  rw [hvalid, hvalid, hconfidence, hlower, hupper, hplanned, Json.pos_reread_iff hfinite,
    Json.reread_lt_one_iff hfinite, ValidityChanges]
  rcases confidence_cases hfinite with ⟨hbelow, hone, hbeq⟩ | ⟨hbelow, hone, hpos, hbeq⟩ |
      ⟨hbelow, hone, hbeq⟩
  · -- The confidence stays valid or invalid, and what counts is the ends.
    by_cases hpos : 0.0 < c.confidence <;> by_cases hcount : c.planned? = some 0 <;>
      simp [hbelow, hone, hbeq, hpos, hcount, hends]
  · -- The confidence is read as one, and no longer valid.
    by_cases hcount : c.planned? = some 0 <;> simp [hbelow, hone, hpos, hbeq, hcount]
  · simp [hbelow, hone, hbeq]

end Choices

/-! ## §3 Saving and loading -/

section Loading

variable [NaturalLog]

/-- A domain is declared by the choice that is read exactly if one was declared before. -/
theorem isSome_domain_reread {c : Choice} {f f' : Aggregator} (h : c.isFinite = true)
    (hf : c.build = .ok f) (hf' : c.reread.build = .ok f') :
    f'.strategy.domain?.isSome = f.strategy.domain?.isSome := by
  have hlower : f.strategy.domain?.map (·.lower) = c.lower? := (settings_of_build hf).2.2.1
  have hlower' : f'.strategy.domain?.map (·.lower) = c.reread.lower? :=
    (settings_of_build hf').2.2.1
  rw [(reread_settings h).2.2.1, ← hlower] at hlower'
  rw [← Option.isSome_map, hlower']
  cases f.strategy.domain? with
  | none => rfl
  | some domain => simp [rereadOption_some, domain.lower_finite]

/-- **What reloading can change.** Whatever is read from the text of a choice is of the same kind.
An aggregator is built from it exactly if one was built from the choice, unless the ends are lost or
turned or the confidence becomes one; and then the two have the same kind of bound and both declare
a domain or none. Only ends that nearly agree are turned. -/
theorem reloads_as_valid_iff {c c' : Choice} (hword : c.FitsWord)
    (hparse : parse c.toValue.compact = .ok c') :
    c'.kind = c.kind ∧
      (((∃ f', c'.build = .ok f') ↔ ∃ f, c.build = .ok f) ↔ ¬ c.ValidityChanges) ∧
      (∀ f f', c.build = .ok f → c'.build = .ok f' →
        f'.strategy.name = f.strategy.name ∧
          f'.strategy.domain?.isSome = f.strategy.domain?.isSome) ∧
      (EndsTurned c.lower? c.upper? →
        ∃ x ∈ c.lower?, ∃ y ∈ c.upper?, ∃ r s : ℝ, Reads x r ∧ Reads y s ∧ r ≠ s ∧
          |r - s| ≤ 2 ^ (-48 : ℤ) * max |r| |s| + 2 ^ (-1071 : ℤ)) := by
  rw [parse_compact hword] at hparse
  cases hfinite : c.isFinite with
  | false =>
    rw [hfinite] at hparse
    cases hparse
  | true =>
    obtain rfl : c.reread = c' := by simpa [hfinite] using hparse
    have hkind := (reread_settings hfinite).1
    refine ⟨hkind, ?_, ?_, EndsTurned.exists_near⟩
    · rw [exists_build_iff, exists_build_iff]
      exact isValid_reread_iff hfinite
    · intro f f' hf hf'
      have hname : f.strategy.name = c.kind.name := (settings_of_build hf).2.1
      have hname' : f'.strategy.name = c.reread.kind.name := (settings_of_build hf').2.1
      exact ⟨by rw [hname', hname, hkind], isSome_domain_reread hfinite hf hf'⟩

end Loading

/-- A bound over the unit interval is reloaded as valid as it was. -/
theorem reloads_as_valid_iff_unitInterval :
    ∃ c', parse (conservative ⟨0.5, 0.0, 1.0⟩).toValue.compact = .ok c' ∧
      c'.kind = .conservative ∧ ∃ f, @build logAtFour c' = .ok f := by
  have hword : (conservative ⟨0.5, 0.0, 1.0⟩).FitsWord := trivial
  have hfinite : (conservative ⟨0.5, 0.0, 1.0⟩).isFinite = true := by decide
  have hparse : parse (conservative ⟨0.5, 0.0, 1.0⟩).toValue.compact =
      .ok (conservative ⟨0.5, 0.0, 1.0⟩).reread := by
    rw [parse_compact hword, if_pos hfinite]
  obtain ⟨hkind, hvalid, -⟩ := @reloads_as_valid_iff logAtFour _ _ hword hparse
  have hlower : (0.0 : Float).isFinite = true := by decide
  have horder : Json.reread 1.0 < Json.reread 0.0 ↔ (1.0 : Float) < 0.0 := by decide
  have hbelow : ((0.5 : Float) == belowOne) = false := by decide
  refine ⟨_, hparse, hkind, (hvalid.mpr ?_).mpr ?_⟩
  · simp [ValidityChanges, EndsLost, EndsTurned, confidence, lower?, upper?, hlower, horder, hbelow]
  · exact (@exists_build_iff logAtFour _).mpr ⟨by decide, by decide,
      ⟨by decide, by decide, by decide⟩, nofun⟩

/-- The last confidence before one is valid and is read as one, which is not; and ends that are no
finite numbers are not valid and are read as left out, which is. -/
theorem reload_changes_validity :
    ((∃ f, @build logAtFour (conservative ⟨belowOne, 0.0, 1.0⟩) = .ok f) ∧
      parse (conservative ⟨belowOne, 0.0, 1.0⟩).toValue.compact =
        .ok (conservative ⟨1.0, 0.0, 1.0⟩) ∧
      @build logAtFour (conservative ⟨1.0, 0.0, 1.0⟩) = .error (.confidenceOutOfRange 1.0)) ∧
    (@build logAtFour (largeSample ⟨0.5, some Numeric.infinity, some Numeric.infinity⟩) =
        .error (.invalidBounds Numeric.infinity Numeric.infinity) ∧
      parse (largeSample ⟨0.5, some Numeric.infinity, some Numeric.infinity⟩).toValue.compact =
        .ok (largeSample ⟨0.5, none, none⟩) ∧
      ∃ f, @build logAtFour (largeSample ⟨0.5, none, none⟩) = .ok f) := by
  have hone : (conservative ⟨belowOne, 0.0, 1.0⟩).FitsWord := trivial
  have hlost : (largeSample ⟨0.5, some Numeric.infinity, some Numeric.infinity⟩).FitsWord := trivial
  refine ⟨⟨?_, ?_, ?_⟩, ?_, ?_, ?_⟩
  · exact (@exists_build_iff logAtFour _).mpr ⟨by decide, by decide,
      ⟨by decide, by decide, by decide⟩, nofun⟩
  · rw [parse_compact hone]
    decide +kernel
  · decide
  · decide
  · rw [parse_compact hlost]
    decide
  · exact (@exists_build_iff logAtFour _).mpr ⟨by decide, by decide, trivial, nofun⟩

end OnlineAggregation.Config.Choice
