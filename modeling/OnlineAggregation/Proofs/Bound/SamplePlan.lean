import OnlineAggregation.Proofs.Aggregator.History
import OnlineAggregation.Proofs.Bound.SampleEstimate

/-!
# What a sample plan promises

The planned count is the greater of two numbers: the rounded estimate, and the least count whose
half-width reaches the target. Main statements: a plan is always sufficient, and for widths and
targets away from the ends of the format it exceeds the least sufficient count `k` by at most
`1 + k / 2 ^ 49`; a request that no count satisfies is refused, and away from the ends of the
format only such requests are, up to counts within `2 ^ 15` of the end of the 64-bit range.
-/

namespace OnlineAggregation

open Binary64
open Numeric (NaturalLog wordSize)

section Plan

variable [NaturalLog] {level : ConfidenceLevel} {domain : ValueDomain} {goal : TargetPrecision}

/-! ## §1 The search -/

/-- A search that finds nothing has seen only insufficient counts. -/
theorem firstSufficient?_eq_none {width target : Float} {fuel start : ℕ}
    (h : firstSufficient? level width target fuel start = none) :
    ∀ k, start ≤ k → k ≤ start + fuel → target < level.hoeffding k width := by
  induction fuel generalizing start with
  | zero =>
    unfold firstSufficient? at h
    split at h
    · rename_i above
      intro k hlow hhigh
      obtain rfl : k = start := by omega
      exact above
    · cases h
  | succ fuel ih =>
    unfold firstSufficient? at h
    split at h
    · rename_i above
      intro k hlow hhigh
      rcases Nat.eq_or_lt_of_le hlow with rfl | later
      · exact above
      · exact ih h k later (by omega)
    · cases h

/-- For a checked request the plan is the first sufficient count from the rounded estimate on. -/
theorem requiredSamples_of_reach
    (hreach : ¬ OutOfReach (estimatedSamples level domain.width goal.value)) :
    let start := max (ceilCount (estimatedSamples level domain.width goal.value)) 1
    requiredSamples level.value domain.lower domain.upper goal.value =
      match firstSufficient? level domain.width goal.value (wordSize - 1 - start) start with
      | some n => .ok n
      | none => .error (.invalidPrecision goal.value) := by
  simp only [requiredSamples, ConfidenceLevel.check_value, ValueDomain.check_self,
    TargetPrecision.check_value, bind, Except.bind]
  exact if_neg hreach

theorem requiredSamples_of_outOfReach
    (hreach : OutOfReach (estimatedSamples level domain.width goal.value)) :
    requiredSamples level.value domain.lower domain.upper goal.value =
      .error (.invalidPrecision goal.value) := by
  simp only [requiredSamples, ConfidenceLevel.check_value, ValueDomain.check_self,
    TargetPrecision.check_value, bind, Except.bind]
  exact if_pos hreach

/-- What an answer to a checked request tells: a refusal, that the estimate is out of reach or
that there is no sufficient count; a plan, that it is the greater of the rounded estimate and the
least sufficient count. -/
theorem requiredSamples_cases (hlog : LogInRange) (level : ConfidenceLevel) (domain : ValueDomain)
    (goal : TargetPrecision) :
    requiredSamples level.value domain.lower domain.upper goal.value =
        .error (.invalidPrecision goal.value) ∧
      (OutOfReach (estimatedSamples level domain.width goal.value) ∨
        ∀ n < 2 ^ 64, ¬ Sufficient level.value domain.toValueRange goal.value n) ∨
    ¬ OutOfReach (estimatedSamples level domain.width goal.value) ∧
      ∃ k, IsLeast {n | Sufficient level.value domain.toValueRange goal.value n} k ∧ k < 2 ^ 64 ∧
        ceilCount (estimatedSamples level domain.width goal.value) < 2 ^ 64 ∧
        requiredSamples level.value domain.lower domain.upper goal.value =
          .ok (max (ceilCount (estimatedSamples level domain.width goal.value)) k) := by
  set estimate := estimatedSamples level domain.width goal.value with hestimate
  by_cases hreach : OutOfReach estimate
  · exact Or.inl ⟨requiredSamples_of_outOfReach hreach, Or.inl hreach⟩
  have hplan := requiredSamples_of_reach hreach
  rw [← hestimate] at hplan
  have hword : ceilCount estimate < 2 ^ 64 := by
    obtain ⟨r, -, -, hceil, hword⟩ := exists_reads_of_reach (estimatedSamples_nonneg hlog hreach)
      hreach
    exact hceil.trans_lt hword
  have hlast : max (ceilCount estimate) 1 + (wordSize - 1 - max (ceilCount estimate) 1) =
      2 ^ 64 - 1 := by
    have hsize : wordSize = 2 ^ 64 := rfl
    omega
  dsimp only at hplan
  cases hsearch : firstSufficient? level domain.width goal.value
      (wordSize - 1 - max (ceilCount estimate) 1) (max (ceilCount estimate) 1) with
  | none =>
    rw [hsearch] at hplan
    refine Or.inl ⟨hplan, Or.inr fun n hn hsufficient => ?_⟩
    -- Were `n` enough, the last count of the search would be.
    have habove := firstSufficient?_eq_none hsearch (2 ^ 64 - 1) (by omega) (by omega)
    exact (lt_hoeffding_iff hlog (by norm_num) (by norm_num)).mp habove
      (hsufficient.mono hlog (by omega) (by norm_num))
  | some n =>
    rw [hsearch] at hplan
    obtain ⟨hlow, hhigh, henough, hbefore⟩ := firstSufficient?_eq_some hsearch
    have hsufficient : Sufficient level.value domain.toValueRange goal.value n :=
      not_not.mp (mt (lt_hoeffding_iff hlog (by omega) (by omega)).mpr henough)
    obtain ⟨k, hk⟩ : ∃ k, IsLeast {n | Sufficient level.value domain.toValueRange goal.value n} k :=
      ⟨_, isLeast_csInf ⟨n, hsufficient⟩⟩
    have hkn : k ≤ n := hk.2 hsufficient
    have hk' : 1 ≤ k := Nat.one_le_iff_ne_zero.mpr (sufficient_iff.mp hk.1).1
    have hmax : max (ceilCount estimate) k = n := by
      rcases Nat.lt_or_ge (max (ceilCount estimate) k) n with hlt | hge
      · -- The search would have stopped earlier.
        refine absurd (hk.1.mono hlog (le_max_right (ceilCount estimate) k) (by omega)) ?_
        exact (lt_hoeffding_iff hlog (by omega) (by omega)).mp (hbefore _ (by omega) hlt)
      · omega
    exact Or.inr ⟨hreach, k, hk, by omega, hword, hplan.trans (by rw [hmax])⟩

/-! ## §2 Plans and refusals -/

/-- The checks are made in the order of the arguments, and the first that fails decides. -/
theorem requiredSamples_of_invalid (confidence lower upper target : Float) :
    (¬ (0.0 < confidence ∧ confidence < 1.0) →
      requiredSamples confidence lower upper target = .error (.confidenceOutOfRange confidence)) ∧
    (∀ level : ConfidenceLevel, level.value = confidence →
      (¬ (lower.isFinite = true ∧ upper.isFinite = true ∧ ¬ upper < lower) →
        requiredSamples confidence lower upper target = .error (.invalidBounds lower upper)) ∧
      ∀ domain : ValueDomain, domain.lower = lower → domain.upper = upper →
        ¬ (target.isFinite = true ∧ ¬ target ≤ 0.0) →
          requiredSamples confidence lower upper target = .error (.invalidPrecision target)) := by
  refine ⟨fun hc => ?_, ?_⟩
  · rw [requiredSamples, ConfidenceLevel.check_eq_error_iff.mpr ⟨rfl, hc⟩]
    rfl
  · rintro level rfl
    refine ⟨fun hd => ?_, ?_⟩
    · rw [requiredSamples, ConfidenceLevel.check_value,
        ValueDomain.check_eq_error_iff.mpr ⟨rfl, hd⟩]
      rfl
    · rintro domain rfl rfl ht
      rw [requiredSamples, ConfidenceLevel.check_value, ValueDomain.check_self,
        TargetPrecision.check_eq_error_iff.mpr ⟨rfl, ht⟩]
      rfl

/-- Only a request that passes the checks gets a plan. -/
theorem exists_checked_of_ok {confidence lower upper target : Float} {n : ℕ}
    (h : requiredSamples confidence lower upper target = .ok n) :
    ∃ (level : ConfidenceLevel) (domain : ValueDomain) (goal : TargetPrecision),
      level.value = confidence ∧ domain.toValueRange = ⟨lower, upper⟩ ∧ goal.value = target := by
  obtain ⟨hconfidence, hrest⟩ := requiredSamples_of_invalid confidence lower upper target
  by_cases hc : 0.0 < confidence ∧ confidence < 1.0
  swap
  · cases h.symm.trans (hconfidence hc)
  obtain ⟨hbounds, htarget⟩ := hrest ⟨confidence, hc.1, hc.2⟩ rfl
  by_cases hd : lower.isFinite = true ∧ upper.isFinite = true ∧ ¬ upper < lower
  swap
  · cases h.symm.trans (hbounds hd)
  by_cases ht : target.isFinite = true ∧ ¬ target ≤ 0.0
  swap
  · cases h.symm.trans (htarget ⟨⟨lower, upper⟩, hd.1, hd.2.1, hd.2.2⟩ rfl rfl ht)
  exact ⟨⟨confidence, hc.1, hc.2⟩, ⟨⟨lower, upper⟩, hd.1, hd.2.1, hd.2.2⟩, ⟨target, ht.1, ht.2⟩,
    rfl, rfl, rfl⟩

/-- A plan comes with checked arguments, and its half-width is at most the target. -/
theorem exists_sufficient_of_ok (hlog : LogInRange) {confidence lower upper target : Float} {n : ℕ}
    (h : requiredSamples confidence lower upper target = .ok n) :
    ∃ (level : ConfidenceLevel) (domain : ValueDomain) (goal : TargetPrecision),
      level.value = confidence ∧ domain.lower = lower ∧ domain.upper = upper ∧
        goal.value = target ∧ n ≠ 0 ∧ level.hoeffding n domain.width ≤ goal.value := by
  obtain ⟨level, domain, goal, rfl, hdomain, rfl⟩ := exists_checked_of_ok h
  obtain ⟨rfl, rfl⟩ : domain.lower = lower ∧ domain.upper = upper := by
    rw [hdomain]
    exact ⟨rfl, rfl⟩
  refine ⟨level, domain, goal, rfl, rfl, rfl, rfl, ?_⟩
  apply sufficient_iff.mp
  rcases requiredSamples_cases hlog level domain goal with ⟨hrefused, -⟩ |
    ⟨-, k, hk, hkword, hceil, hplan⟩
  · cases h.symm.trans hrefused
  · obtain rfl := Except.ok.inj (h.symm.trans hplan)
    exact hk.1.mono hlog (le_max_right _ k) (max_lt hceil hkword)

/-- **A plan is sufficient, and nearly least**: it is the greater of the rounded estimate and the
least sufficient count `k`, so it is the least one exactly if the estimate is not above `k`; and
away from the ends of the format it is at most `k + 1` up to `2 ^ 49`. -/
theorem requiredSamples_eq_max (hlog : LogInRange) {confidence lower upper target : Float} {n : ℕ}
    (h : requiredSamples confidence lower upper target = .ok n) :
    1 ≤ n ∧ n < 2 ^ 64 ∧ Sufficient confidence ⟨lower, upper⟩ target n ∧
      ∃ level k, ConfidenceLevel.value level = confidence ∧
        IsLeast {m | Sufficient confidence ⟨lower, upper⟩ target m} k ∧
        n = max (ceilCount (estimatedSamples level (upper - lower) target)) k ∧
        ((∀ m, 1 ≤ m → m < n →
            ∃ e, seenHalfWidth confidence m ⟨lower, upper⟩ = .ok e ∧ target < e) ↔
          ceilCount (estimatedSamples level (upper - lower) target) ≤ k) ∧
        (IsOrdinary (upper - lower) target → n ≤ k + k / 2 ^ 49 + 1) := by
  obtain ⟨level, domain, goal, rfl, hdomain, rfl⟩ := exists_checked_of_ok h
  obtain ⟨rfl, rfl⟩ : domain.lower = lower ∧ domain.upper = upper := by
    rw [hdomain]
    exact ⟨rfl, rfl⟩
  rcases requiredSamples_cases hlog level domain goal with ⟨hrefused, -⟩ |
    ⟨hreach, k, hk, hkword, hceil, hplan⟩
  · cases h.symm.trans hrefused
  have hmax : n = max (ceilCount (estimatedSamples level domain.width goal.value)) k :=
    Except.ok.inj (h.symm.trans hplan)
  have hkpos : 1 ≤ k := Nat.one_le_iff_ne_zero.mpr (sufficient_iff.mp hk.1).1
  have hnword : n < 2 ^ 64 := by omega
  refine ⟨by omega, hnword, hk.1.mono hlog (by omega) hnword, level, k, rfl, hk, hmax, ?_, ?_⟩
  · constructor
    · -- If all counts before the plan are insufficient, `k` is not one of them.
      intro hbefore
      by_contra hlt
      have hk_lt : k < n := by
        rw [hmax]
        exact lt_max_of_lt_left (not_le.mp hlt)
      obtain ⟨e, he, habove⟩ := hbefore k hkpos hk_lt
      rw [seenHalfWidth_of_ne_zero level (by omega)] at he
      cases he
      exact (lt_hoeffding_iff hlog hkpos hkword).mp habove hk.1
    · intro hle m hm hmn
      have hmk : m < k := hmn.trans_eq (hmax.trans (max_eq_right hle))
      refine ⟨_, seenHalfWidth_of_ne_zero level (by omega) domain.toValueRange, ?_⟩
      exact (lt_hoeffding_iff hlog hm (by omega)).mpr fun hs => absurd (hk.2 hs) (not_le.mpr hmk)
  · intro hordinary
    obtain ⟨r, hr, hle⟩ := estimatedSamples_le hlog hordinary hk.1 hkword
    obtain ⟨r', hr', -, hround, -⟩ := exists_reads_of_reach (estimatedSamples_nonneg hlog hreach)
      hreach
    obtain rfl : r = r' := EReal.coe_eq_coe_iff.mp (hr.unique hr')
    have hdiv : k < 2 ^ 49 * (k / 2 ^ 49 + 1) := Nat.lt_mul_div_succ k (by norm_num)
    generalize k / 2 ^ 49 = d at hdiv ⊢
    have hrest : (k : ℝ) * 2 ^ (-49 : ℤ) ≤ d + 1 := by
      have hcast : (k : ℝ) < 2 ^ 49 * (d + 1) := by exact_mod_cast hdiv
      norm_num
      linarith
    have hround_le : ceilCount (estimatedSamples level domain.width goal.value) ≤
        k + d + 1 := by
      rw [hround, Nat.ceil_le]
      push_cast
      linarith
    omega

end Plan

/-- Three values from `[0, 1]` are enough for a half-width of a half at even odds. -/
theorem requiredSamples_eq_max_three :
    @requiredSamples logAtFour 0.5 0.0 1.0 0.5 = .ok 3 ∧
      @Sufficient logAtFour 0.5 ⟨0.0, 1.0⟩ 0.5 3 :=
  have hplan : @requiredSamples logAtFour 0.5 0.0 1.0 0.5 = .ok 3 := by decide +kernel
  ⟨hplan, (@requiredSamples_eq_max logAtFour logInRange_logAtFour _ _ _ _ _ hplan).2.2.1⟩

/-- A plan is not always least: for the half-width of a single value two values are planned. -/
theorem not_least_requiredSamples :
    ∃ log : NaturalLog, @LogInRange log ∧ ∃ target,
      @requiredSamples log 0.5 0.0 1.0 target = .ok 2 ∧
        @Sufficient log 0.5 ⟨0.0, 1.0⟩ target 1 := by
  refine ⟨logAtFour, logInRange_logAtFour, Float.ofBits 0x3feaa4499161cd47, by decide +kernel, ?_⟩
  exact (@sufficient_iff logAtFour Aggregator.half _ _ _).mpr ⟨one_ne_zero, by decide +kernel⟩

section Refusal

variable [NaturalLog]

/-- **When a request is refused**: an invalid one always, for its first invalid argument; a valid
one exactly if its estimate is out of reach or no count of 64 bits is sufficient. Away from the
ends of the format the estimate is out of reach only if all counts up to `2 ^ 64 - 2 ^ 15` are
insufficient. -/
theorem requiredSamples_refuses_iff (hlog : LogInRange) (confidence lower upper target : Float) :
    (¬ (0.0 < confidence ∧ confidence < 1.0) →
      requiredSamples confidence lower upper target = .error (.confidenceOutOfRange confidence)) ∧
    ∀ level : ConfidenceLevel, level.value = confidence →
      (¬ (lower.isFinite = true ∧ upper.isFinite = true ∧ ¬ upper < lower) →
        requiredSamples confidence lower upper target = .error (.invalidBounds lower upper)) ∧
      ∀ domain : ValueDomain, domain.lower = lower → domain.upper = upper →
        (¬ (target.isFinite = true ∧ ¬ target ≤ 0.0) →
          requiredSamples confidence lower upper target = .error (.invalidPrecision target)) ∧
        ∀ goal : TargetPrecision, goal.value = target →
          (requiredSamples confidence lower upper target = .error (.invalidPrecision target) ↔
            OutOfReach (estimatedSamples level (upper - lower) target) ∨
              ∀ n, 1 ≤ n → n < 2 ^ 64 → ¬ Sufficient confidence ⟨lower, upper⟩ target n) ∧
          (requiredSamples confidence lower upper target ≠ .error (.invalidPrecision target) →
            ∃ n, requiredSamples confidence lower upper target = .ok n) ∧
          (IsOrdinary (upper - lower) target →
            requiredSamples confidence lower upper target = .error (.invalidPrecision target) →
            ∀ n, 1 ≤ n → n ≤ 2 ^ 64 - 2 ^ 15 → ¬ Sufficient confidence ⟨lower, upper⟩ target n) := by
  obtain ⟨hconfidence, hrest⟩ := requiredSamples_of_invalid confidence lower upper target
  refine ⟨hconfidence, fun level hlevel => ⟨(hrest level hlevel).1, ?_⟩⟩
  refine fun domain hlower hupper => ⟨(hrest level hlevel).2 domain hlower hupper, ?_⟩
  rintro goal rfl
  obtain rfl := hlevel
  obtain rfl := hlower
  obtain rfl := hupper
  -- All arguments are valid now, and the search decides.
  rcases requiredSamples_cases hlog level domain goal with ⟨hrefused, hwhy⟩ |
    ⟨hreach, k, hk, hkword, -, hplan⟩
  · have hreason : OutOfReach (estimatedSamples level domain.width goal.value) ∨
        ∀ n, 1 ≤ n → n < 2 ^ 64 → ¬ Sufficient level.value domain.toValueRange goal.value n :=
      hwhy.imp_right fun hnone n _ hn => hnone n hn
    refine ⟨iff_of_true hrefused hreason, fun h => absurd hrefused h, ?_⟩
    intro hordinary _ n hn hsmall hsufficient
    rcases hreason with hout | hnone
    · obtain ⟨r, hr, hle⟩ := estimatedSamples_le hlog hordinary hsufficient (by omega)
      have hlarge := (outOfReach_iff hr).mp hout
      have hcast : (n : ℝ) ≤ (2 ^ 64 - 2 ^ 15 : ℕ) := Nat.cast_le.mpr hsmall
      norm_num at hlarge hle
      rw [Nat.cast_sub (by norm_num)] at hcast
      push_cast at hcast
      linarith
    · exact hnone n hn (by omega) hsufficient
  · have hplanned : requiredSamples level.value domain.lower domain.upper goal.value ≠
        .error (.invalidPrecision goal.value) := by
      rw [hplan]
      exact nofun
    refine ⟨iff_of_false hplanned ?_, fun _ => ⟨_, hplan⟩, fun _ h => absurd h hplanned⟩
    rintro (hout | hnone)
    · exact hreach hout
    · exact hnone k (Nat.one_le_iff_ne_zero.mpr (sufficient_iff.mp hk.1).1) hkword hk.1

end Refusal

/-- A half-width of `2 ^ -40` over `[0, 1]` is refused, and a million values would not do. -/
theorem requiredSamples_refuses_iff_fine :
    @requiredSamples logAtFour 0.5 0.0 1.0 (Float.ofBits 0x3d70000000000000) =
        .error (.invalidPrecision (Float.ofBits 0x3d70000000000000)) ∧
      ¬ @Sufficient logAtFour 0.5 ⟨0.0, 1.0⟩ (Float.ofBits 0x3d70000000000000) 1000000 := by
  have hrefused : @requiredSamples logAtFour 0.5 0.0 1.0 (Float.ofBits 0x3d70000000000000) =
      .error (.invalidPrecision (Float.ofBits 0x3d70000000000000)) := by decide
  have hordinary : IsOrdinary (1.0 - 0.0) (Float.ofBits 0x3d70000000000000) :=
    ⟨by decide, by decide, by decide⟩
  refine ⟨hrefused, ?_⟩
  exact (((@requiredSamples_refuses_iff logAtFour logInRange_logAtFour 0.5 0.0 1.0
    (Float.ofBits 0x3d70000000000000)).2 Aggregator.half rfl).2
    ⟨⟨0.0, 1.0⟩, by decide, by decide, by decide⟩ rfl rfl).2
    ⟨Float.ofBits 0x3d70000000000000, by decide, by decide⟩ rfl |>.2.2 hordinary
    hrefused 1000000 (by norm_num) (by norm_num)

/-- One value from `[0, 2 ^ 600]` is enough for a half-width of `2 ^ 600`, but the square of the
width overflows and the request is refused. -/
theorem refused_though_sufficient :
    ∃ log : NaturalLog, @LogInRange log ∧ ∃ target,
      @requiredSamples log 0.5 0.0 target target = .error (.invalidPrecision target) ∧
        @Sufficient log 0.5 ⟨0.0, target⟩ target 1 := by
  refine ⟨logAtFour, logInRange_logAtFour, Float.ofBits 0x6570000000000000, by decide, ?_⟩
  exact (@sufficient_iff logAtFour Aggregator.half _ _ _).mpr ⟨one_ne_zero, by decide +kernel⟩

end OnlineAggregation
