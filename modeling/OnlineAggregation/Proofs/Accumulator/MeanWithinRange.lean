import OnlineAggregation.Mean.Accumulator
import OnlineAggregation.Mean.Estimate
import OnlineAggregation.Proofs.Binary64.Arithmetic
import OnlineAggregation.Proofs.Bound.Hull

/-!
# Where the running mean can be

The mean moves towards a new value by a quotient of their rounded distance. Main statements: as
long as no such distance overflows, the mean stays between the least and the greatest value, and
spread and standard error are not negative; and the first distance that overflows takes the mean
out of the numbers for good. So the condition is exact.
-/

namespace OnlineAggregation

open Binary64

/-! ## §1 One move on the real line -/

private theorem quotient_le {d t : ℝ} (hd : 0 ≤ d)
    (hmultiple : ∃ k : ℤ, d = k * 2 ^ (-1074 : ℤ)) (ht : 2 ≤ t) :
    rounded (rounded d / t) ≤ d := by
  rcases hd.eq_or_lt with rfl | hpos
  · simp
  · -- Rounding takes `d` at most to the next power of two, and halving that gives back one below.
    set k := Int.log 2 d with hk
    have hlow : (2 : ℝ) ^ k ≤ d := by exact_mod_cast Int.zpow_log_le_self one_lt_two hpos
    have hhigh : d < (2 : ℝ) ^ (k + 1) := by exact_mod_cast Int.lt_zpow_succ_log_self one_lt_two d
    have hleast : -1074 ≤ k := by
      obtain ⟨n, hn⟩ := hmultiple
      have hplace := two_zpow_pos (-1074)
      have hn' : (1 : ℝ) ≤ n := by
        have hn0 : (0 : ℝ) < n := by
          rw [hn] at hpos
          exact (mul_pos_iff_of_pos_right hplace).mp hpos
        exact_mod_cast hn0
      have hle : (2 : ℝ) ^ (-1074 : ℤ) ≤ d := by
        rw [hn]
        exact le_mul_of_one_le_left hplace.le hn'
      have hlt := (zpow_lt_zpow_iff_right₀ (one_lt_two : (1 : ℝ) < 2)).mp (hle.trans_lt hhigh)
      omega
    have hrounded : rounded d ≤ 2 ^ (k + 1) :=
      rounded_le (Representable.two_zpow (by omega)) hhigh.le
    have hquotient : rounded d / t ≤ 2 ^ k := by
      rw [div_le_iff₀ (by linarith)]
      calc rounded d ≤ 2 ^ (k + 1) := hrounded
        _ = 2 ^ k * 2 := zpow_add_one₀ two_ne_zero k
        _ ≤ 2 ^ k * t := mul_le_mul_of_nonneg_left ht (two_zpow_pos k).le
    exact (rounded_le (Representable.two_zpow hleast) hquotient).trans hlow

/-- The mean `m` after a move towards `x`, at a count of `t`. -/
noncomputable def moved (m x t : ℝ) : ℝ :=
  rounded (m + rounded (rounded (x - m) / t))

private theorem moved_neg (m x t : ℝ) : moved (-m) (-x) t = -moved m x t := by
  have hdistance : -x - -m = -(x - m) := by ring
  rw [moved, moved, hdistance, rounded_neg, neg_div, rounded_neg, ← neg_add, rounded_neg]

private theorem moved_mem_of_le {m x t : ℝ} (hm : Representable m) (hx : Representable x)
    (ht : 2 ≤ t) (hmx : m ≤ x) : m ≤ moved m x t ∧ moved m x t ≤ x := by
  have hdistance : 0 ≤ x - m := sub_nonneg.mpr hmx
  -- A distance is either zero or at least the least number of the format.
  have hmultiple : ∃ k : ℤ, x - m = k * 2 ^ (-1074 : ℤ) := by
    obtain ⟨i, hi⟩ := hx.exists_multiple
    obtain ⟨j, hj⟩ := hm.exists_multiple
    refine ⟨i - j, ?_⟩
    rw [hi, hj]
    push_cast
    ring
  have hstep : 0 ≤ rounded (rounded (x - m) / t) :=
    rounded_nonneg (div_nonneg (rounded_nonneg hdistance) (by linarith))
  have hstep' := quotient_le hdistance hmultiple ht
  exact ⟨le_rounded hm (by linarith), rounded_le hx (by linarith)⟩

/-- A move never goes back and never goes too far. -/
theorem moved_mem {m x t : ℝ} (hm : Representable m) (hx : Representable x) (ht : 2 ≤ t) :
    (m ≤ moved m x t ∧ moved m x t ≤ x) ∨ (x ≤ moved m x t ∧ moved m x t ≤ m) := by
  rcases le_total m x with hmx | hxm
  · exact Or.inl (moved_mem_of_le hm hx ht hmx)
  · right
    obtain ⟨hlow, hhigh⟩ := moved_mem_of_le hm.neg hx.neg ht (neg_le_neg hxm)
    rw [moved_neg] at hlow hhigh
    exact ⟨neg_le_neg_iff.mp hhigh, neg_le_neg_iff.mp hlow⟩

private theorem abs_le_of_mem {m x y : ℝ} (h : (m ≤ y ∧ y ≤ x) ∨ (x ≤ y ∧ y ≤ m)) :
    |y| ≤ max |m| |x| := by
  rcases h with ⟨hlow, hhigh⟩ | ⟨hlow, hhigh⟩
  · exact abs_le_max_abs_abs hlow hhigh
  · rw [max_comm]
    exact abs_le_max_abs_abs hlow hhigh

/-- Before and after a move the value lies in the same direction, and it is not further after. -/
theorem distances_of_mem {m x y : ℝ} (h : (m ≤ y ∧ y ≤ x) ∨ (x ≤ y ∧ y ≤ m)) :
    |x - y| ≤ |x - m| ∧ 0 ≤ rounded (x - m) * rounded (x - y) := by
  rcases h with ⟨hlow, hhigh⟩ | ⟨hlow, hhigh⟩
  · refine ⟨?_, mul_nonneg (rounded_nonneg (by linarith)) (rounded_nonneg (by linarith))⟩
    rw [abs_of_nonneg (by linarith), abs_of_nonneg (by linarith)]
    linarith
  · refine ⟨?_, mul_nonneg_of_nonpos_of_nonpos (rounded_nonpos (by linarith))
      (rounded_nonpos (by linarith))⟩
    rw [abs_of_nonpos (by linarith), abs_of_nonpos (by linarith)]
    linarith

namespace Accumulator

/-! ## §2 One value more -/

/-- The mean lies between the least and the greatest value, and the squares are not negative. -/
structure IsCentred (a : Accumulator Float) : Prop where
  count_pos : 1 ≤ a.count
  mean_finite : a.mean.isFinite = true
  least_finite : a.least.isFinite = true
  greatest_finite : a.greatest.isFinite = true
  least_le : a.least ≤ a.mean
  le_greatest : a.mean ≤ a.greatest
  squares_nonneg : 0.0 ≤ a.squares

private theorem nonneg_zero : 0.0 ≤ ((0 : ℕ) : Float) := by
  decide

theorem isCentred_single {v : Float} (hv : v.isFinite = true) : (single v).IsCentred := by
  obtain ⟨x, hx⟩ := isFinite_iff_exists_reads.mp hv
  exact ⟨le_rfl, hv, hv, hv, hx.le_self, hx.le_self, nonneg_zero⟩

variable {a : Accumulator Float} {v : Float} {m x : ℝ}

/-- As numbers, the mean makes the move of the real line. -/
theorem reads_moved_insert (hm : Reads a.mean m) (hx : Reads v x)
    (hdistance : (v - a.mean).isFinite = true) (hcount : 1 ≤ a.count)
    (hword : a.count + 1 < 2 ^ 64) :
    ∃ t : ℝ, 2 ≤ t ∧ Reads (a.insert v).mean (moved m x t) := by
  obtain ⟨t, ht, hcounted⟩ := exists_reads_ofNat (k := 2) (n := a.count + 1) (by omega)
    (by norm_num) hword
  have ht : (2 : ℝ) ≤ t := by exact_mod_cast ht
  have hsmall := (hx.sub hm).abs_lt_of_isFinite hdistance
  have hdelta := (hx.sub hm).of_nearest hsmall
  -- Only the first rounding can overflow: a quotient is smaller, and the move ends in between.
  have hshrunk : |rounded (x - m) / t| ≤ |rounded (x - m)| := by
    rw [abs_div, abs_of_pos (by linarith : (0 : ℝ) < t)]
    exact div_le_self (abs_nonneg _) (by linarith)
  have hquotient : |rounded (rounded (x - m) / t)| < overflow := by
    apply (abs_rounded_mono hshrunk).trans_lt
    rwa [(representable_rounded _).rounded_eq]
  have hstep := (hdelta.div hcounted (by linarith)).of_nearest hquotient
  have hbounded : |moved m x t| < overflow :=
    (abs_le_of_mem (moved_mem hm.representable hx.representable ht)).trans_lt
      (max_lt hm.abs_lt_overflow hx.abs_lt_overflow)
  exact ⟨t, ht, (hm.add hstep).of_nearest hbounded⟩

private theorem reads_mean_insert (hm : Reads a.mean m) (hx : Reads v x)
    (hdistance : (v - a.mean).isFinite = true) (hcount : 1 ≤ a.count)
    (hword : a.count + 1 < 2 ^ 64) :
    ∃ y : ℝ, ((m ≤ y ∧ y ≤ x) ∨ (x ≤ y ∧ y ≤ m)) ∧ Reads (a.insert v).mean y := by
  obtain ⟨t, ht, hmoved⟩ := reads_moved_insert hm hx hdistance hcount hword
  exact ⟨_, moved_mem hm.representable hx.representable ht, hmoved⟩

/-- The distance after a move is no larger than that before it, so it does not overflow either. -/
theorem reads_distances {y : ℝ} (hm : Reads a.mean m) (hx : Reads v x)
    (hdistance : (v - a.mean).isFinite = true) (hmem : (m ≤ y ∧ y ≤ x) ∨ (x ≤ y ∧ y ≤ m))
    (hy : Reads (a.insert v).mean y) :
    Reads (v - a.mean) (rounded (x - m)) ∧
      Reads (v - (a.insert v).mean) (rounded (x - y)) := by
  have hsmall := (hx.sub hm).abs_lt_of_isFinite hdistance
  have hcloser := abs_rounded_mono (distances_of_mem hmem).1
  exact ⟨(hx.sub hm).of_nearest hsmall, (hx.sub hy).of_nearest (hcloser.trans_lt hsmall)⟩

/-- What a value at a finite distance from the mean adds to the squares is not negative. -/
theorem product_nonneg (hmean : a.mean.isFinite = true) (hcount : 1 ≤ a.count)
    (hv : v.isFinite = true) (hdistance : (v - a.mean).isFinite = true)
    (hword : a.count + 1 < 2 ^ 64) :
    0.0 ≤ (v - a.mean) * (v - (a.insert v).mean) := by
  obtain ⟨m, hm⟩ := isFinite_iff_exists_reads.mp hmean
  obtain ⟨x, hx⟩ := isFinite_iff_exists_reads.mp hv
  obtain ⟨y, hmem, hy⟩ := reads_mean_insert hm hx hdistance hcount hword
  obtain ⟨hdelta, hrest⟩ := reads_distances hm hx hdistance hmem hy
  exact nonneg_of_reads (hdelta.mul hrest) (nearest_nonneg (distances_of_mem hmem).2)

/-- A value at a finite distance from the mean keeps it between the least and the greatest. -/
theorem IsCentred.insert (h : a.IsCentred) (hv : v.isFinite = true)
    (hdistance : (v - a.mean).isFinite = true) (hword : a.count + 1 < 2 ^ 64) :
    (a.insert v).IsCentred := by
  obtain ⟨m, hm⟩ := isFinite_iff_exists_reads.mp h.mean_finite
  obtain ⟨l, hl⟩ := isFinite_iff_exists_reads.mp h.least_finite
  obtain ⟨g, hg⟩ := isFinite_iff_exists_reads.mp h.greatest_finite
  obtain ⟨x, hx⟩ := isFinite_iff_exists_reads.mp hv
  obtain ⟨y, hmem, hy⟩ := reads_mean_insert hm hx hdistance h.count_pos hword
  have hlm : l ≤ m := EReal.coe_le_coe_iff.mp ((hl.le_iff hm).mp h.least_le)
  have hmg : m ≤ g := EReal.coe_le_coe_iff.mp ((hm.le_iff hg).mp h.le_greatest)
  have hleast : Reads (a.insert v).least (min (l : EReal) x) := hl.ite_lt_min hx
  have hgreatest : Reads (a.insert v).greatest (max (g : EReal) x) := hg.ite_lt_max hx
  -- The mean moved towards the value and not past it, so it lies between two points that are both
  -- within the new ends.
  refine ⟨Nat.le_add_left 1 a.count, hy.isFinite, ?_, ?_, ?_, ?_, ?_⟩
  · rcases ite_eq_or_eq (a.least < v) a.least v with heq | heq
    · exact (congrArg Float.isFinite heq).trans h.least_finite
    · exact (congrArg Float.isFinite heq).trans hv
  · rcases ite_eq_or_eq (v < a.greatest) a.greatest v with heq | heq
    · exact (congrArg Float.isFinite heq).trans h.greatest_finite
    · exact (congrArg Float.isFinite heq).trans hv
  · rw [hleast.le_iff hy, min_le_iff, EReal.coe_le_coe_iff, EReal.coe_le_coe_iff]
    exact hmem.imp (fun hup => hlm.trans hup.1) (fun hdown => hdown.1)
  · rw [hy.le_iff hgreatest, le_max_iff, EReal.coe_le_coe_iff, EReal.coe_le_coe_iff]
    exact hmem.symm.imp (fun hdown => hdown.2.trans hmg) (fun hup => hup.2)
  · exact nonneg_add h.squares_nonneg
      (product_nonneg h.mean_finite h.count_pos hv hdistance hword)

/-- A finite mean comes from a finite mean and a finite distance. -/
theorem isFinite_of_mean_insert (hcount : a.count + 1 < 2 ^ 64)
    (h : (a.insert v).mean.isFinite = true) :
    a.mean.isFinite = true ∧ (v - a.mean).isFinite = true := by
  -- The new mean is a sum, and its second term a quotient of the distance.
  obtain ⟨hmean, hquotient⟩ := isFinite_of_add h
  obtain ⟨t, -, hcounted⟩ := exists_reads_ofNat (Nat.zero_le (a.count + 1)) (Nat.zero_le _) hcount
  exact ⟨hmean, isFinite_of_div hquotient hcounted.isFinite⟩

/-! ## §3 All values -/

/-- Whether every value is at a finite distance from the mean of those before it. -/
def distancesFinite : Accumulator Float → List Float → Bool
  | _, [] => true
  | a, v :: vs => (v - a.mean).isFinite && distancesFinite (a.insert v) vs

theorem IsCentred.foldl_insert (h : a.IsCentred) {vs : List Float}
    (hvs : ∀ v ∈ vs, v.isFinite = true) (hdistances : distancesFinite a vs = true)
    (hword : a.count + vs.length < 2 ^ 64) : (vs.foldl Accumulator.insert a).IsCentred := by
  induction vs generalizing a with
  | nil => exact h
  | cons v vs ih =>
    rw [distancesFinite, Bool.and_eq_true] at hdistances
    rw [List.length_cons] at hword
    have hnext := h.insert (hvs v List.mem_cons_self) hdistances.1 (by omega)
    apply ih hnext (fun w hw => hvs w (List.mem_cons_of_mem v hw)) hdistances.2
    rw [count_insert]
    omega

/-- A mean that is finite in the end was finite, and so were all distances from it. -/
theorem distancesFinite_of_mean {vs : List Float} (hword : a.count + vs.length < 2 ^ 64)
    (h : (vs.foldl Accumulator.insert a).mean.isFinite = true) :
    a.mean.isFinite = true ∧ distancesFinite a vs = true := by
  -- The mean before the first value is part of the statement, so that the induction goes through.
  induction vs generalizing a with
  | nil => exact ⟨h, rfl⟩
  | cons v vs ih =>
    rw [List.length_cons] at hword
    obtain ⟨hmean, hdistances⟩ := ih (a := a.insert v) (by rw [count_insert]; omega) h
    obtain ⟨hbefore, hdistance⟩ := isFinite_of_mean_insert (by omega) hmean
    refine ⟨hbefore, ?_⟩
    rw [distancesFinite, hdistance, hdistances]
    rfl

/-- Within a range of finite width no distance overflows. -/
theorem distancesFinite_of_width {r : ValueRange} {vs : List Float} (h : a.IsCentred)
    (hlower : r.lower.isFinite = true) (hupper : r.upper.isFinite = true)
    (hwidth : r.width.isFinite = true) (hmean : r.contains a.mean = true)
    (hvs : ∀ v ∈ vs, r.contains v = true) (hword : a.count + vs.length < 2 ^ 64) :
    distancesFinite a vs = true := by
  obtain ⟨l, hl⟩ := isFinite_iff_exists_reads.mp hlower
  obtain ⟨u, hu⟩ := isFinite_iff_exists_reads.mp hupper
  have hsmall := (hu.sub hl).abs_lt_of_isFinite hwidth
  induction vs generalizing a with
  | nil => rfl
  | cons v vs ih =>
    rw [List.length_cons] at hword
    obtain ⟨hlm, hmu⟩ := ValueRange.contains_iff.mp hmean
    obtain ⟨hlv, hvu⟩ := ValueRange.contains_iff.mp (hvs v List.mem_cons_self)
    obtain ⟨m, hlm, hmu, hm⟩ := exists_reads_of_mem hl hu hlm hmu
    obtain ⟨x, hlx, hxu, hx⟩ := exists_reads_of_mem hl hu hlv hvu
    -- Two points of the range are no further apart than its ends.
    have hcloser : |x - m| ≤ |u - l| := by
      rw [abs_of_nonneg (by linarith : 0 ≤ u - l), abs_le]
      constructor <;> linarith
    have hdistance : (v - a.mean).isFinite = true :=
      ((hx.sub hm).of_nearest ((abs_rounded_mono hcloser).trans_lt hsmall)).isFinite
    obtain ⟨y, hmem, hy⟩ := reads_mean_insert hm hx hdistance h.count_pos (by omega)
    have hnext : r.contains (a.insert v).mean = true := by
      rw [ValueRange.contains_iff, hl.le_iff hy, hy.le_iff hu, EReal.coe_le_coe_iff,
        EReal.coe_le_coe_iff]
      rcases hmem with ⟨hlow, hhigh⟩ | ⟨hlow, hhigh⟩
      · exact ⟨hlm.trans hlow, hhigh.trans hxu⟩
      · exact ⟨hlx.trans hlow, hhigh.trans hmu⟩
    rw [distancesFinite, hdistance, Bool.true_and]
    refine ih (h.insert hx.isFinite hdistance (by omega)) hnext
      (fun w hw => hvs w (List.mem_cons_of_mem v hw)) ?_
    rw [count_insert]
    omega

/-! ## §4 What a caller reads off -/

/-- The mean is a number in the observed range, spread and standard error are not negative, and an
estimate with this mean contains it. -/
structure IsSound (a : Accumulator Float) : Prop where
  mean_finite : a.mean.isFinite = true
  lower_le_mean : a.observedRange.lower ≤ a.mean
  mean_le_upper : a.mean ≤ a.observedRange.upper
  variance_not_nan : a.variance.isNaN = false
  variance_nonneg : 0.0 ≤ a.variance
  stdError_not_nan : a.stdError.isNaN = false
  stdError_nonneg : 0.0 ≤ a.stdError
  estimate_contains : ∀ e : Estimate, e.mean = a.mean → 0.0 ≤ e.epsilon → e.contains e.mean = true

theorem IsCentred.variance_nonneg (h : a.IsCentred) (hword : a.count < 2 ^ 64) :
    0.0 ≤ a.variance := by
  unfold variance
  split
  · exact nonneg_zero
  · rename_i hseveral
    obtain ⟨t, ht, hcounted⟩ := exists_reads_ofNat (k := 1) (n := a.count - 1) (by omega)
      (by norm_num) (by omega)
    rw [Nat.cast_one] at ht
    exact nonneg_div h.squares_nonneg hcounted (by linarith)

theorem IsCentred.isSound (h : a.IsCentred) (hword : a.count < 2 ^ 64) : a.IsSound := by
  obtain ⟨m, hm⟩ := isFinite_iff_exists_reads.mp h.mean_finite
  obtain ⟨l, hl⟩ := isFinite_iff_exists_reads.mp h.least_finite
  obtain ⟨g, hg⟩ := isFinite_iff_exists_reads.mp h.greatest_finite
  obtain ⟨t, ht, hcounted⟩ := exists_reads_ofNat h.count_pos (by norm_num) hword
  rw [Nat.cast_one] at ht
  have hlower : Reads a.observedRange.lower (min (l : EReal) g) := hl.ite_lt_min hg
  have hupper : Reads a.observedRange.upper (max (l : EReal) g) := hl.ite_lt_max hg
  have hvariance := h.variance_nonneg hword
  have hstdError : 0.0 ≤ a.stdError := nonneg_sqrt (nonneg_div hvariance hcounted (by linarith))
  refine ⟨h.mean_finite, ?_, ?_, (isNaN_eq_false_of_le hvariance).2, hvariance,
    (isNaN_eq_false_of_le hstdError).2, hstdError, ?_⟩
  · rw [hlower.le_iff hm]
    exact (min_le_left _ _).trans ((hl.le_iff hm).mp h.least_le)
  · rw [hm.le_iff hupper]
    exact ((hm.le_iff hg).mp h.le_greatest).trans (le_max_right _ _)
  · intro e hmean hepsilon
    rw [← hmean] at hm
    rw [Estimate.contains, Bool.and_eq_true, decide_eq_true_iff, decide_eq_true_iff]
    exact ⟨sub_nonneg_le hm hepsilon, le_add_nonneg hm hepsilon⟩

/-- Finite values are all accepted. -/
theorem seed_pushAll {first : Float} {others : List Float}
    (hfinite : ∀ v ∈ first :: others, v.isFinite = true) :
    (seed first >>= fun a => a.pushAll others) = .ok (ofValues first others) := by
  have hpushed : ∀ (vs : List Float) (a : Accumulator Float), (∀ v ∈ vs, v.isFinite = true) →
      a.pushAll vs = .ok (vs.foldl Accumulator.insert a) := by
    intro vs
    induction vs with
    | nil => intro a _; rfl
    | cons v vs ih =>
      intro a hvs
      have hpush : a.push v = .ok (a.insert v) := if_pos (hvs v List.mem_cons_self)
      rw [pushAll, List.foldlM_cons, hpush]
      exact ih (a.insert v) (fun w hw => hvs w (List.mem_cons_of_mem v hw))
  have hseed : seed first = .ok (single first) := if_pos (hfinite first List.mem_cons_self)
  rw [hseed]
  exact hpushed others (single first) (fun v hv => hfinite v (List.mem_cons_of_mem first hv))

theorem isSound_of_distancesFinite {first : Float} {others : List Float}
    (hfinite : ∀ v ∈ first :: others, v.isFinite = true) (hword : others.length + 1 < 2 ^ 64)
    (hdistances : distancesFinite (single first) others = true) :
    (ofValues first others).IsSound := by
  have hcentred : (ofValues first others).IsCentred := by
    refine (isCentred_single (hfinite first List.mem_cons_self)).foldl_insert
      (fun v hv => hfinite v (List.mem_cons_of_mem first hv)) hdistances ?_
    rwa [Nat.add_comm] at hword
  exact hcentred.isSound (by rwa [count_ofValues])

/-- Values from a range of finite width give a sound accumulator. -/
theorem isSound_of_width {r : ValueRange} (hlower : r.lower.isFinite = true)
    (hupper : r.upper.isFinite = true) (hwidth : r.width.isFinite = true) {first : Float}
    {others : List Float} (hvalues : ∀ v ∈ first :: others, r.contains v = true)
    (hword : others.length + 1 < 2 ^ 64) : (ofValues first others).IsSound := by
  obtain ⟨l, hl⟩ := isFinite_iff_exists_reads.mp hlower
  obtain ⟨u, hu⟩ := isFinite_iff_exists_reads.mp hupper
  have hfinite : ∀ v ∈ first :: others, v.isFinite = true := by
    intro v hv
    obtain ⟨hlow, hhigh⟩ := ValueRange.contains_iff.mp (hvalues v hv)
    obtain ⟨t, -, -, ht⟩ := exists_reads_of_mem hl hu hlow hhigh
    exact ht.isFinite
  refine isSound_of_distancesFinite hfinite hword (distancesFinite_of_width
    (isCentred_single (hfinite first List.mem_cons_self)) hlower hupper hwidth
    (hvalues first List.mem_cons_self) (fun v hv => hvalues v (List.mem_cons_of_mem first hv)) ?_)
  rwa [Nat.add_comm] at hword

/-- **The running mean stays within the data exactly as long as no distance from it overflows**:
seeding with the first value and pushing the others gives a sound accumulator if and only if every
value was at a finite distance from the mean before it. -/
theorem isSound_iff_distancesFinite {first : Float} {others : List Float}
    (hfinite : ∀ v ∈ first :: others, v.isFinite = true) (hword : others.length + 1 < 2 ^ 64) :
    ∃ a, (seed first >>= fun s => s.pushAll others) = .ok a ∧
      (a.IsSound ↔ distancesFinite (single first) others = true) := by
  refine ⟨ofValues first others, seed_pushAll hfinite, ?_, isSound_of_distancesFinite hfinite hword⟩
  intro hsound
  -- A finite mean at the end is all that is needed of a sound accumulator.
  refine (distancesFinite_of_mean ?_ hsound.mean_finite).2
  rwa [Nat.add_comm] at hword

theorem isSound_iff_distancesFinite_three :
    ∃ a, (seed 1.0 >>= fun s => s.pushAll [4.0, -2.5]) = .ok a ∧ a.IsSound := by
  obtain ⟨a, hvalues, hiff⟩ := @isSound_iff_distancesFinite 1.0 [4.0, -2.5]
    (by decide) (by norm_num)
  exact ⟨a, hvalues, hiff.mpr (by decide)⟩

/-- The least and the greatest finite number: their distance overflows, and the mean with it. -/
theorem not_isSound_of_extremes :
    ∃ first second a, first.isFinite = true ∧ second.isFinite = true ∧
      (seed first >>= fun s => s.pushAll [second]) = .ok a ∧ ¬ a.IsSound := by
  refine ⟨Float.ofBits 0xffefffffffffffff, Float.ofBits 0x7fefffffffffffff, _, by decide,
    by decide, seed_pushAll (by decide), ?_⟩
  intro hsound
  exact absurd hsound.mean_finite (by decide)

end Accumulator

end OnlineAggregation
