import OnlineAggregation.Proofs.Aggregator.FiniteHalfWidth

/-!
# When there is a half-width

A planned half-width is there from the start. Over a declared domain the first accepted value
brings one. Without a domain it takes a second value that is a different number, be it the
neighbour of the first; the two zeros are one number. Main statement: after any calls there is a
half-width exactly if one of the three is the case, and then no call takes it away.
-/

namespace OnlineAggregation

open Numeric (NaturalLog)

/-! ## §1 What a strategy waits for -/

namespace Strategy

/-- The strategy can give a half-width for the values `ys`. -/
inductive Ready : Strategy → List Float → Prop where
  | planned (domain : ValueDomain) (count : ℕ) (ys : List Float) :
      Ready (deterministic domain count) ys
  | declared {s : Strategy} {domain : ValueDomain} {ys : List Float}
      (hdomain : s.domain? = some domain) (hys : ys ≠ []) : Ready s ys
  | spread {ys : List Float} {x y : Float} (hx : x ∈ ys) (hy : y ∈ ys) (hxy : (x == y) = false) :
      Ready (largeSample none) ys

variable {s : Strategy} {ys zs : List Float}

/-- More values keep a strategy ready. -/
theorem Ready.mono (h : s.Ready ys) (hsubset : ys ⊆ zs) : s.Ready zs := by
  cases h with
  | planned domain count => exact .planned domain count zs
  | declared hdomain hys =>
    apply Ready.declared hdomain
    rintro rfl
    exact hys (List.subset_nil.mp hsubset)
  | spread hx hy hxy => exact .spread (hsubset hx) (hsubset hy) hxy

theorem not_ready_nil (hdata : s.dependsOnData = true) : ¬ s.Ready [] := by
  intro h
  cases h with
  | planned domain count => simp [dependsOnData] at hdata
  | declared hdomain hys => exact hys rfl
  | spread hx => simp at hx

theorem ready_largeSample_iff :
    (largeSample none).Ready ys ↔ ∃ x ∈ ys, ∃ y ∈ ys, (x == y) = false := by
  constructor
  · intro h
    cases h with
    | declared hdomain => simp [domain?] at hdomain
    | spread hx hy hxy => exact ⟨_, hx, _, hy, hxy⟩
  · rintro ⟨x, hx, y, hy, hxy⟩
    exact .spread hx hy hxy

/-- Only the large-sample strategy can do without a domain. -/
theorem eq_largeSample_of_no_domain (h : s.domain? = none) : s = largeSample none := by
  cases s with
  | largeSample domain =>
    obtain rfl : domain = none := h
    rfl
  | conservative domain => simp [domain?] at h
  | deterministic domain planned => simp [domain?] at h

end Strategy

/-! ## §2 After any calls -/

namespace Aggregator

section Reachable

variable [NaturalLog]

/-- There is something for a half-width to rest on once the strategy is ready. -/
theorem Remembers.isSome_basis?_iff {f : Aggregator} {ys : List Float} (h : f.Remembers ys) :
    f.basis?.isSome = true ↔ f.strategy.Ready ys := by
  cases hdata : f.strategy.dependsOnData with
  | false =>
    cases hstrategy : f.strategy with
    | deterministic domain planned =>
      simp [basis?, hstrategy, Strategy.basis?, Strategy.Ready.planned domain planned ys]
    | _ => simp [hstrategy, Strategy.dependsOnData] at hdata
  | true =>
    by_cases hys : ys = []
    · subst hys
      simp [basis?, h.observed_of_nil rfl, Strategy.basis?_none hdata, Strategy.not_ready_nil hdata]
    · obtain ⟨r, hobserved, hhull⟩ := h.observed_of_ne_nil hys
      cases hdomain : f.strategy.domain? with
      | some domain =>
        simp [basis?, hobserved, Strategy.basis?_of_seen hdata hdomain,
          Strategy.Ready.declared hdomain hys]
      | none =>
        -- The width of the hull decides, and it tells whether two of the values differ.
        rw [basis?, hobserved, Strategy.eq_largeSample_of_no_domain hdomain,
          Strategy.ready_largeSample_iff, ← hhull.width_pos_iff]
        simp [Strategy.basis?]

/-- There is a half-width if the strategy is ready, and otherwise the one refusal. -/
theorem Remembers.epsilon_cases {f : Aggregator} {ys : List Float} (h : f.Remembers ys) :
    (f.strategy.Ready ys ∧ ∃ e, f.epsilon = .ok e) ∨
      (¬ f.strategy.Ready ys ∧ f.epsilon = .error .halfWidthUnavailable) := by
  rw [← h.isSome_basis?_iff, epsilon, h.epsilon_eq_basis]
  cases f.basis? with
  | none => simp
  | some b => simp

/-- After any calls the values accepted so far decide, and the strategy of the start. -/
theorem Built.epsilon_cases {f₀ : Aggregator} (hbuilt : Built f₀) (calls : List Call) :
    (f₀.strategy.Ready (acceptedValues calls) ∧ ∃ e, (f₀.afterCalls calls).epsilon = .ok e) ∨
      (¬ f₀.strategy.Ready (acceptedValues calls) ∧
        (f₀.afterCalls calls).epsilon = .error .halfWidthUnavailable) := by
  rw [← (f₀.afterCalls_settings calls).2]
  exact (hbuilt.remembers calls).epsilon_cases

theorem Built.exists_epsilon_iff {f₀ : Aggregator} (hbuilt : Built f₀) (calls : List Call) :
    (∃ e, (f₀.afterCalls calls).epsilon = .ok e) ↔ f₀.strategy.Ready (acceptedValues calls) := by
  rcases hbuilt.epsilon_cases calls with ⟨hready, hok⟩ | ⟨hnot, herror⟩
  · exact iff_of_true hok hready
  · apply iff_of_false _ hnot
    simp [herror]

/-- **There is a half-width exactly when the strategy is ready**: after any calls, with values and
accumulators of any kind, it is there if and only if it was planned, or a domain was declared and a
value accepted, or no domain was declared and two accepted values are different numbers. Otherwise
it is reported as unavailable. Once there is one, there is one after all further calls. -/
theorem epsilon_eq_ok_iff_ready {f₀ : Aggregator} (hbuilt : Built f₀) (calls : List Call) :
    let f := f₀.afterCalls calls
    let ready := f₀.strategy.Ready (acceptedValues calls)
    ((∃ e, f.epsilon = .ok e) ↔ ready) ∧
    (¬ ready → f.epsilon = .error .halfWidthUnavailable) ∧
    ((∃ e, f.epsilon = .ok e) → ∀ more : List Call, ∃ e, (f.afterCalls more).epsilon = .ok e) := by
  intro f ready
  refine ⟨hbuilt.exists_epsilon_iff calls, ?_, ?_⟩
  · intro hnot
    exact ((hbuilt.epsilon_cases calls).resolve_left fun h => hnot h.1).2
  · intro hok more
    rw [← afterCalls_append]
    apply (hbuilt.exists_epsilon_iff (calls ++ more)).mpr
    -- The values before are among those after, and a strategy that is ready stays so.
    apply ((hbuilt.exists_epsilon_iff calls).mp hok).mono
    simp [acceptedValues_append]

end Reachable

/-- Two zeros are no spread, nor is a refused NaN; the least number above zero is, whatever the
accumulator. -/
theorem epsilon_eq_ok_iff_ready_neighbours :
    let f := @afterCalls logAtFour ⟨half, .largeSample none, 0, none, none⟩
      [(none, 0.0), (none, Numeric.nan), (none, -0.0)]
    f.epsilon = .error .halfWidthUnavailable ∧
      ∃ e, (@afterCalls logAtFour f [(some (.single 7.0), Float.ofBits 1)]).epsilon = .ok e := by
  have hbuilt := @Built.largeSample logAtFour _ _ (@largeSample_half logAtFour)
  intro f
  constructor
  · obtain ⟨-, herror, -⟩ := @epsilon_eq_ok_iff_ready logAtFour _ hbuilt
      [(none, 0.0), (none, Numeric.nan), (none, -0.0)]
    apply herror
    rw [Strategy.ready_largeSample_iff]
    decide
  · obtain ⟨hiff, -, -⟩ := @epsilon_eq_ok_iff_ready logAtFour _ hbuilt
      [(none, 0.0), (none, Numeric.nan), (none, -0.0), (some (.single 7.0), Float.ofBits 1)]
    rw [← @afterCalls_append logAtFour]
    apply hiff.mpr
    rw [Strategy.ready_largeSample_iff]
    decide

end Aggregator

end OnlineAggregation
