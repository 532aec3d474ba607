import OnlineAggregation.Proofs.Aggregator.History
import OnlineAggregation.Proofs.Bound.EqualEnds

/-!
# The order of the values

What an aggregator remembers of its values it remembers of them in any order. Main statement: two
runs of calls with the same values in different orders, refused ones among them, leave the same
number, the same range as far as numbers go, and the same half-width to the last bit. The ends of
the ranges need not be the same to the last bit, since of two equal zeros the later one is kept.
-/

namespace OnlineAggregation

open Numeric (NaturalLog)

namespace Aggregator

/-! ## §1 The same values remembered -/

section Remembering

variable [NaturalLog] {f g : Aggregator} {ys zs : List Float}

/-- Nothing that is remembered tells in which order the values came. -/
theorem Remembers.perm (h : f.Remembers ys) (hperm : ys.Perm zs) : f.Remembers zs := by
  have hnil : ys = [] ↔ zs = [] := by
    rw [← List.length_eq_zero_iff, hperm.length_eq, List.length_eq_zero_iff]
  constructor
  · exact h.observations_eq.trans hperm.length_eq
  · exact fun hzs => h.observed_of_nil (hnil.mpr hzs)
  · intro hzs
    obtain ⟨r, hobserved, hhull⟩ := h.observed_of_ne_nil (mt hnil.mp hzs)
    exact ⟨r, hobserved, hhull.perm hperm⟩
  · exact h.planned
  · exact fun hdata hzs => h.epsilon_of_nil hdata (hnil.mpr hzs)
  · exact fun hdata hzs => h.epsilon_of_ne_nil hdata (mt hnil.mp hzs)

/-- Of the same values there is one range only. -/
theorem Remembers.observed_rel (h : f.Remembers ys) (h' : g.Remembers ys) :
    Option.Rel ValueRange.SameEnds f.observed g.observed := by
  by_cases hys : ys = []
  · rw [h.observed_of_nil hys, h'.observed_of_nil hys]
    exact .none
  · obtain ⟨r, hobserved, hhull⟩ := h.observed_of_ne_nil hys
    obtain ⟨s, hobserved', hhull'⟩ := h'.observed_of_ne_nil hys
    rw [hobserved, hobserved']
    exact .some (hhull.sameEnds hhull')

/-- With the same settings the same values have the same half-width. -/
theorem Remembers.epsilon_eq_of_same (h : f.Remembers ys) (h' : g.Remembers ys)
    (hconfidence : f.confidence = g.confidence) (hstrategy : f.strategy = g.strategy) :
    f.epsilon? = g.epsilon? := by
  cases hdata : f.strategy.dependsOnData with
  | false =>
    rw [h.planned hdata, h'.planned (hstrategy ▸ hdata), planned?, planned?, hconfidence,
      hstrategy]
  | true =>
    have hdata' : g.strategy.dependsOnData = true := hstrategy ▸ hdata
    by_cases hys : ys = []
    · rw [h.epsilon_of_nil hdata hys, h'.epsilon_of_nil hdata' hys]
    · obtain ⟨r, hobserved, hhull⟩ := h.observed_of_ne_nil hys
      obtain ⟨s, hobserved', hhull'⟩ := h'.observed_of_ne_nil hys
      -- The two ranges may differ in the sign of a zero, which no strategy looks at.
      have hwidth : g.strategy.halfWidth g.confidence.value g.observations (some r) =
          g.strategy.halfWidth g.confidence.value g.observations (some s) :=
        g.strategy.halfWidth_sameEnds _ _ (hhull.sameEnds hhull') hhull.lower_finite
          hhull.upper_finite
      rw [h.epsilon_of_ne_nil hdata hys, h'.epsilon_of_ne_nil hdata' hys, hobserved, hobserved',
        hconfidence, hstrategy, h.observations_eq, ← h'.observations_eq, hwidth]

end Remembering

/-! ## §2 Reordered calls -/

section Reordering

/-- The same calls accept the same values, wherever the refused ones stand. -/
theorem acceptedValues_perm {calls calls' : List Call}
    (hperm : (calls.map Prod.snd).Perm (calls'.map Prod.snd)) :
    (acceptedValues calls).Perm (acceptedValues calls') :=
  hperm.filter _

variable [NaturalLog]

/-- **The order of the values does not matter**: let the same values be folded in two orders, with
any accumulators, by two copies of an aggregator. Then both have accepted equally many, have seen
the same range as far as numbers go, and answer the same half-width or the same error. -/
theorem reordered_values {f₀ : Aggregator} (hbuilt : Built f₀) {calls calls' : List Call}
    (hperm : (calls.map Prod.snd).Perm (calls'.map Prod.snd)) :
    let f := f₀.afterCalls calls
    let g := f₀.afterCalls calls'
    f.observations = g.observations ∧
      Option.Rel ValueRange.SameEnds f.observed g.observed ∧
      f.epsilon = g.epsilon := by
  intro f g
  -- Both remember the values that the second one has accepted.
  have hf : f.Remembers (acceptedValues calls') :=
    (hbuilt.remembers calls).perm (acceptedValues_perm hperm)
  have hg : g.Remembers (acceptedValues calls') := hbuilt.remembers calls'
  obtain ⟨hconfidence, hstrategy⟩ := f₀.afterCalls_settings calls
  obtain ⟨hconfidence', hstrategy'⟩ := f₀.afterCalls_settings calls'
  refine ⟨hf.observations_eq.trans hg.observations_eq.symm, hf.observed_rel hg, ?_⟩
  rw [epsilon, epsilon, hf.epsilon_eq_of_same hg (hconfidence.trans hconfidence'.symm)
    (hstrategy.trans hstrategy'.symm)]

end Reordering

/-- Two zeros, a value and a NaN in two orders: the lower ends of the ranges are the two zeros, and
still the half-widths are the same. -/
theorem reordered_zeros :
    let f₀ : Aggregator := ⟨half, .largeSample none, 0, none, none⟩
    let calls : List Call :=
      [(none, 0.0), (some (.single 7.0), Numeric.nan), (none, -0.0), (none, 3.0)]
    let calls' : List Call :=
      [(none, 3.0), (none, -0.0), (some (.single 1.0), 0.0), (none, Numeric.nan)]
    (f₀.afterCalls calls).observed ≠ (f₀.afterCalls calls').observed ∧
      (f₀.afterCalls calls).epsilon = (f₀.afterCalls calls').epsilon := by
  intro f₀ calls calls'
  have hperm : (calls.map Prod.snd).Perm (calls'.map Prod.snd) := by decide
  exact ⟨by decide +kernel, (reordered_values (.largeSample largeSample_half) hperm).2.2⟩

end Aggregator

end OnlineAggregation
