import OnlineAggregation.Proofs.Accumulator.MeanWithinRange
import OnlineAggregation.Proofs.Binary64.Lost
import OnlineAggregation.Proofs.Binary64.Monotone

/-!
# When there is spread

Whether values have any spread is decided on their accumulated squares, after all the roundings.
Main statements: equal values have none; an accumulator in which a distance from the mean has
overflowed has none either, and is never mended; but there is spread once the first value that
differs from those before it is clearly apart from them.
-/

namespace OnlineAggregation

open Binary64

namespace Binary64

/-! ## §1 Sizes -/

/-- The number is at least `2 ^ k`, possibly infinite. -/
def Exceeds (k : ℤ) (z : Float) : Prop :=
  Reads z ⊤ ∨ ∃ r : ℝ, (2 : ℕ) ^ k ≤ r ∧ Reads z r

variable {k : ℤ} {z w : Float}

theorem exceeds_iff : Exceeds k z ↔ Reads z ⊤ ∨ ∃ r : ℝ, 2 ^ k ≤ r ∧ Reads z r :=
  Iff.rfl

theorem exceeds_of_nearest {r : ℝ} (hz : Reads z (nearest r)) (hk : -1074 ≤ k) (hr : 2 ^ k ≤ r) :
    Exceeds k z := by
  have hrounded : 2 ^ k ≤ rounded r := le_rounded (Representable.two_zpow hk) hr
  by_cases hover : overflow ≤ rounded r
  · rw [nearest_of_le hover] at hz
    exact Or.inl hz
  · have hsmall : |rounded r| < overflow := by
      rw [abs_of_pos ((two_zpow_pos k).trans_le hrounded)]
      exact not_le.mp hover
    exact Or.inr ⟨_, hrounded, hz.of_nearest hsmall⟩

theorem Exceeds.add (hz : Exceeds k z) (hw : 0.0 ≤ w) (hk : -1074 ≤ k) : Exceeds k (z + w) := by
  rcases exceeds_iff.mp hz with hz | ⟨r, hr, hz⟩ <;> rcases nonneg_cases hw with hw | ⟨t, ht, hw⟩
  · exact Or.inl (hz.top_add_top hw)
  · exact Or.inl (hz.top_add hw)
  · exact Or.inl (hz.add_top hw)
  · exact exceeds_of_nearest (hz.add hw) hk (by linarith)

/-- A count enters arithmetic as a number from one to `2 ^ 64`. -/
theorem exists_reads_count {n : ℕ} (hn : 1 ≤ n) (hword : n < 2 ^ 64) :
    ∃ t : ℝ, 1 ≤ t ∧ t ≤ 2 ^ 64 ∧ Reads (Float.ofNat n) t := by
  obtain ⟨hlow, hhigh, hcounted⟩ := (reads_ofNat n).of_mem_zpow (i := 0) (j := 64)
    (by exact_mod_cast hn) (by exact_mod_cast hword.le)
  exact ⟨_, by simpa using hlow, by exact_mod_cast hhigh, hcounted⟩

/-- A count takes away at most 64 powers of two. -/
theorem Exceeds.div_count {n : ℕ} (hz : Exceeds k z) (hn : 1 ≤ n) (hword : n < 2 ^ 64)
    (hk : -1074 ≤ k - 64) : Exceeds (k - 64) (z / Float.ofNat n) := by
  obtain ⟨t, ht, ht', hcounted⟩ := exists_reads_count hn hword
  rcases exceeds_iff.mp hz with hz | ⟨r, hr, hz⟩
  · exact Or.inl (hz.top_div hcounted (by linarith))
  · apply exceeds_of_nearest (hz.div hcounted (by linarith)) hk
    rw [zpow_sub₀ two_ne_zero]
    exact div_le_div₀ ((two_zpow_pos k).le.trans hr) hr (by linarith) (by exact_mod_cast ht')

theorem Exceeds.sqrt_pos (hz : Exceeds k z) (hk : -1074 ≤ k) : 0.0 < z.sqrt := by
  rcases exceeds_iff.mp hz with hz | ⟨r, hr, hz⟩
  · exact (reads_zero.lt_iff hz.sqrt_top).mpr EReal.zero_lt_top
  · have hleast : (2 : ℝ) ^ (-1074 : ℤ) ≤ r := (zpow_le_zpow_right₀ one_le_two hk).trans hr
    have hpos := two_zpow_pos (-1074)
    rw [reads_zero.lt_iff (hz.sqrt (hpos.le.trans hleast))]
    apply nearest_pos
    apply Real.le_sqrt_of_sq_le
    calc ((2 : ℝ) ^ (-1074 : ℤ)) ^ 2 ≤ 2 ^ (-1074 : ℤ) * 1 := by
          rw [pow_two]
          refine mul_le_mul_of_nonneg_left ?_ hpos.le
          exact zpow_le_one_of_nonpos₀ one_le_two (by norm_num)
      _ ≤ r := by rwa [mul_one]

/-- Rounding makes a number smaller or larger by at most `2 ^ -53` of itself and half of the least
place. -/
theorem abs_abs_rounded_sub_le (r : ℝ) :
    |r| - |rounded r| ≤ 1 / 2 ^ 53 * |r| + 2 ^ (-1075 : ℤ) ∧
      |rounded r| - |r| ≤ 1 / 2 ^ 53 * |r| + 2 ^ (-1075 : ℤ) := by
  have hu : unitRoundoff = 1 / 2 ^ 53 := by
    rw [unitRoundoff]
    norm_num
  have herror := abs_rounded_sub_self_le_add r
  rw [hu] at herror
  refine ⟨?_, (abs_sub_abs_le_abs_sub _ _).trans herror⟩
  rw [abs_sub_comm] at herror
  exact (abs_sub_abs_le_abs_sub _ _).trans herror

/-- Far above the least place its half is no more than the relative error. -/
theorem least_le_of_large {d : ℝ} (hlarge : 2 ^ (-470 : ℤ) ≤ |d|) :
    (2 : ℝ) ^ (-1075 : ℤ) ≤ 1 / 2 ^ 53 * |d| := by
  calc (2 : ℝ) ^ (-1075 : ℤ) ≤ 2 ^ (-53 + -470 : ℤ) := zpow_le_zpow_right₀ one_le_two (by norm_num)
    _ = 1 / 2 ^ 53 * 2 ^ (-470 : ℤ) := by rw [zpow_add₀ two_ne_zero]; norm_num
    _ ≤ 1 / 2 ^ 53 * |d| := mul_le_mul_of_nonneg_left hlarge (by norm_num)

end Binary64

namespace Accumulator

/-! ## §2 Equal values -/

/-- All values so far stand for the same point, and there are no squares. -/
structure IsConstant (a : Accumulator Float) (x : ℝ) : Prop where
  count_pos : 1 ≤ a.count
  mean : Reads a.mean x
  squares : Reads a.squares (0 : ℝ)

theorem isConstant_single {v : Float} {x : ℝ} (hv : Reads v x) : (single v).IsConstant x :=
  ⟨le_rfl, hv, reads_zero⟩

section Values

variable {a : Accumulator Float} {v : Float} {vs : List Float} {x : ℝ}

theorem IsConstant.insert (h : a.IsConstant x) (hv : Reads v x) (hword : a.count + 1 < 2 ^ 64) :
    (a.insert v).IsConstant x := by
  obtain ⟨t, ht, -, hcounted⟩ := exists_reads_count (Nat.le_add_left 1 a.count) hword
  have hzero : ∀ {y : Float} {r : ℝ}, Reads y (nearest r) → r = 0 → Reads y (0 : ℝ) := by
    rintro y r hy rfl
    rwa [nearest_zero] at hy
  -- Neither the mean nor the squares move by anything but zero.
  have hdelta : Reads (v - a.mean) (0 : ℝ) := hzero (hv.sub h.mean) (sub_self x)
  have hmove := hzero (hdelta.div hcounted (by linarith)) (zero_div t)
  have hmean : Reads (a.insert v).mean x := by
    have hsum := h.mean.add hmove
    rwa [add_zero, h.mean.nearest_eq] at hsum
  have hrest : Reads (v - (a.insert v).mean) (0 : ℝ) := hzero (hv.sub hmean) (sub_self x)
  have hproduct := hzero (hdelta.mul hrest) (zero_mul 0)
  exact ⟨Nat.le_add_left 1 a.count, hmean, hzero (h.squares.add hproduct) (zero_add 0)⟩

theorem IsConstant.foldl_insert (h : a.IsConstant x) (hvs : ∀ v ∈ vs, Reads v x)
    (hword : a.count + vs.length < 2 ^ 64) : (vs.foldl Accumulator.insert a).IsConstant x := by
  induction vs generalizing a with
  | nil => exact h
  | cons v vs ih =>
    rw [List.length_cons] at hword
    apply ih (h.insert (hvs v List.mem_cons_self) (by omega))
      (fun w hw => hvs w (List.mem_cons_of_mem v hw))
    rw [count_insert]
    omega

/-- No squares, no standard error. -/
theorem IsConstant.not_stdError_pos (h : a.IsConstant x) (hword : a.count < 2 ^ 64) :
    ¬ 0.0 < a.stdError := by
  have hdivided : ∀ {y : Float} {n : ℕ}, Reads y (0 : ℝ) → 1 ≤ n → n < 2 ^ 64 →
      Reads (y / Float.ofNat n) (0 : ℝ) := by
    intro y n hy hn hword
    obtain ⟨t, ht, -, hcounted⟩ := exists_reads_count hn hword
    have hquotient := hy.div hcounted (by linarith)
    rwa [zero_div, nearest_zero] at hquotient
  have hvariance : Reads a.variance (0 : ℝ) := by
    unfold variance
    split
    · exact reads_zero
    · exact hdivided h.squares (by omega) (by omega)
  have hroot := (hdivided hvariance h.count_pos hword).sqrt le_rfl
  rw [Real.sqrt_zero, nearest_zero] at hroot
  exact fun hpos => lt_irrefl 0 ((reads_zero.lt_iff hroot).mp hpos)

/-! ## §3 Overflow -/

/-- The mean is no number any more, and the squares are lost below. -/
structure IsBroken (a : Accumulator Float) : Prop where
  mean_lost : a.mean.isFinite = false
  squares_lost : IsLost .negative a.squares

/-- The first distance that overflows breaks the accumulator: the mean follows the distance, so the
other distance is lost on the other side. -/
theorem isBroken_insert (hdistance : (v - a.mean).isFinite = false)
    (hword : a.count + 1 < 2 ^ 64) : (a.insert v).IsBroken := by
  obtain ⟨t, ht, -, hcounted⟩ := exists_reads_count (Nat.le_add_left 1 a.count) hword
  obtain ⟨s, hdelta⟩ := exists_isLost hdistance
  have hmove := hdelta.div_pos hcounted (by linarith)
  have hmean : IsLost s (a.insert v).mean := hmove.add_right a.mean
  have hproduct := hdelta.mul (hmean.sub_right v)
  have hsign : s * -s = .negative := by cases s <;> rfl
  rw [hsign] at hproduct
  exact ⟨hmean.isFinite_eq, hproduct.add_right a.squares⟩

/-- A broken accumulator is never mended. -/
theorem IsBroken.foldl_insert (h : a.IsBroken) (hword : a.count + vs.length < 2 ^ 64) :
    (vs.foldl Accumulator.insert a).IsBroken := by
  induction vs generalizing a with
  | nil => exact h
  | cons v vs ih =>
    rw [List.length_cons] at hword
    obtain ⟨s, hlost⟩ := exists_isLost h.mean_lost
    apply ih (isBroken_insert (hlost.sub_right v).isFinite_eq (by omega))
    rw [count_insert]
    omega

theorem isBroken_foldl_insert (hdistances : distancesFinite a vs = false)
    (hword : a.count + vs.length < 2 ^ 64) : (vs.foldl Accumulator.insert a).IsBroken := by
  induction vs generalizing a with
  | nil => cases hdistances
  | cons v vs ih =>
    rw [List.length_cons] at hword
    have hlater : (a.insert v).count + vs.length < 2 ^ 64 := by
      rw [count_insert]
      omega
    cases hdistance : (v - a.mean).isFinite with
    | false => exact (isBroken_insert hdistance (by omega)).foldl_insert hlater
    | true =>
      rw [distancesFinite, hdistance, Bool.true_and] at hdistances
      exact ih hdistances hlater

/-- The variance of a broken accumulator is no square. -/
theorem IsBroken.not_stdError_pos (h : a.IsBroken) (hseveral : 2 ≤ a.count)
    (hword : a.count < 2 ^ 64) : ¬ 0.0 < a.stdError := by
  have hdivided : ∀ {y : Float} {n : ℕ}, IsLost .negative y → 1 ≤ n → n < 2 ^ 64 →
      IsLost .negative (y / Float.ofNat n) := by
    intro y n hy hn hword
    obtain ⟨t, ht, -, hcounted⟩ := exists_reads_count hn hword
    exact hy.div_pos hcounted (by linarith)
  have hvariance : IsLost .negative a.variance := by
    rw [variance, if_neg (by omega)]
    exact hdivided h.squares_lost (by omega) (by omega)
  have hnan : a.stdError.isNaN = true := (hdivided hvariance (by omega) hword).isNaN_sqrt
  intro hpos
  rw [(isNaN_eq_false_of_lt hpos).2] at hnan
  cases hnan

/-! ## §4 Values that are clearly apart -/

/-- The move towards a value that is clearly apart leaves an eighth of the distance. -/
theorem moved_apart {m x t : ℝ} (ht : 2 ≤ t) (hlarge : 2 ^ (-470 : ℤ) ≤ |x - m|)
    (hclear : |m| ≤ 2 ^ 51 * |x - m|) : |x - m| / 8 ≤ |x - moved m x t| := by
  set delta := rounded (x - m) with hdelta
  set step := rounded (delta / t) with hstep
  -- Three roundings: of the distance, of its quotient, and of the new mean.
  obtain ⟨-, hdelta_le⟩ := abs_abs_rounded_sub_le (x - m)
  obtain ⟨-, hstep_le⟩ := abs_abs_rounded_sub_le (delta / t)
  have hmean_error := abs_rounded_sub_self_le_add (m + step)
  rw [show unitRoundoff = 1 / 2 ^ 53 by rw [unitRoundoff]; norm_num] at hmean_error
  have hquotient_le : |delta / t| ≤ |delta| / 2 := by
    rw [abs_div, abs_of_pos (by linarith : (0 : ℝ) < t)]
    exact div_le_div_of_nonneg_left (abs_nonneg _) two_pos ht
  have hmean_le : |m + step| ≤ |m| + |step| := abs_add_le m step
  have hsplit : |x - m| ≤ |x - moved m x t| + |rounded (m + step) - (m + step)| + |step| := by
    calc |x - m| = |x - moved m x t + (rounded (m + step) - (m + step)) + step| := by
          congr 1
          rw [moved, ← hdelta, ← hstep]
          ring
      _ ≤ _ := (abs_add_le _ _).trans (add_le_add_left (abs_add_le _ _) _)
  have hleast := least_le_of_large hlarge
  have hnonneg := abs_nonneg (x - m)
  rw [← hdelta] at hdelta_le
  rw [← hstep] at hstep_le
  generalize (2 : ℝ) ^ (-1075 : ℤ) = least at hleast hdelta_le hstep_le hmean_error
  linarith

/-- The second number is clearly apart from the first: by `2 ^ -51` of it and not by next to
nothing. -/
def ClearlyApart (u v : Float) : Prop :=
  ∃ x y : ℝ, Reads u x ∧ Reads v y ∧ (2 : ℕ) ^ (-470 : ℤ) ≤ |y - x| ∧
    |x| ≤ (2 : ℕ) ^ 51 * |y - x|

variable {k : ℤ}

/-- The first value that is clearly apart leaves squares that are not rounded away. -/
theorem IsConstant.exceeds_insert (h : a.IsConstant x) {y : ℝ} (hv : Reads v y)
    (hlarge : 2 ^ (-470 : ℤ) ≤ |y - x|) (hclear : |x| ≤ 2 ^ 51 * |y - x|)
    (hdistance : (v - a.mean).isFinite = true) (hword : a.count + 1 < 2 ^ 64) :
    Exceeds (-945) (a.insert v).squares := by
  obtain ⟨t, ht, hmean⟩ := reads_moved_insert h.mean hv hdistance h.count_pos hword
  have hmem := moved_mem h.mean.representable hv.representable ht
  obtain ⟨hdelta, hrest⟩ := reads_distances h.mean hv hdistance hmem hmean
  have hapart := moved_apart ht hlarge hclear
  set rest := y - moved x y t with hrest_eq
  -- The product of the two distances, each at least half of what it was before rounding.
  have hleast := least_le_of_large hlarge
  have hnonneg := abs_nonneg (y - x)
  have hbefore : |y - x| / 2 ≤ |rounded (y - x)| := by
    have hrounded := (abs_abs_rounded_sub_le (y - x)).1
    linarith
  have hafter : |rest| / 2 ≤ |rounded rest| := by
    have hrounded := (abs_abs_rounded_sub_le rest).1
    linarith
  have hproduct : 2 ^ (-945 : ℤ) ≤ rounded (y - x) * rounded rest := by
    rw [← abs_of_nonneg (distances_of_mem hmem).2, abs_mul]
    calc (2 : ℝ) ^ (-945 : ℤ) = 2 ^ (-470 : ℤ) / 2 * (2 ^ (-470 : ℤ) / 16) := by
          rw [show (-945 : ℤ) = -470 + -470 + -5 by norm_num, zpow_add₀ two_ne_zero,
            zpow_add₀ two_ne_zero]
          ring
      _ ≤ |rounded (y - x)| * |rounded rest| :=
          mul_le_mul (by linarith) (by linarith) (by positivity) (abs_nonneg _)
  have hterm := exceeds_of_nearest (hdelta.mul hrest) (by norm_num) hproduct
  have hsquares : Reads a.squares (0 : ℝ) := h.squares
  rcases exceeds_iff.mp hterm with htop | ⟨p, hp, hreads⟩
  · exact Or.inl (hsquares.add_top htop)
  · exact exceeds_of_nearest (hsquares.add hreads) (by norm_num) (by linarith)

/-- Later values do not take away from the squares. -/
theorem exceeds_foldl_insert (hsquares : Exceeds k a.squares) (hk : -1074 ≤ k) (h : a.IsCentred)
    (hvs : ∀ v ∈ vs, v.isFinite = true) (hdistances : distancesFinite a vs = true)
    (hword : a.count + vs.length < 2 ^ 64) :
    Exceeds k (vs.foldl Accumulator.insert a).squares := by
  induction vs generalizing a with
  | nil => exact hsquares
  | cons v vs ih =>
    rw [distancesFinite, Bool.and_eq_true] at hdistances
    rw [List.length_cons] at hword
    have hv := hvs v List.mem_cons_self
    have hterm := product_nonneg h.mean_finite h.count_pos hv hdistances.1 (by omega)
    apply ih (hsquares.add hterm hk) (h.insert hv hdistances.1 (by omega))
      (fun w hw => hvs w (List.mem_cons_of_mem v hw)) hdistances.2
    rw [count_insert]
    omega

/-- Squares of that size survive both divisions and the root. -/
theorem stdError_pos_of_exceeds (hsquares : Exceeds (-945) a.squares) (hseveral : 2 ≤ a.count)
    (hword : a.count < 2 ^ 64) : 0.0 < a.stdError := by
  have hvariance : Exceeds (-945 - 64) a.variance := by
    rw [variance, if_neg (by omega)]
    exact hsquares.div_count (by omega) (by omega) (by norm_num)
  exact (hvariance.div_count (by omega) hword (by norm_num)).sqrt_pos (by norm_num)

end Values

/-! ## §5 All values -/

theorem distancesFinite_append (a : Accumulator Float) (us vs : List Float) :
    distancesFinite a (us ++ vs) =
      (distancesFinite a us && distancesFinite (us.foldl Accumulator.insert a) vs) := by
  induction us generalizing a with
  | nil => rfl
  | cons u us ih =>
    simp only [List.cons_append, distancesFinite, ih, Bool.and_assoc, List.foldl_cons]

/-- The first value that differs from those before it is clearly apart from them. -/
def SpreadsClearly (first : Float) (others : List Float) : Prop :=
  ∃ us v vs, others = us ++ v :: vs ∧ (∀ u ∈ us, (first == u) = true) ∧ ClearlyApart first v

section Lists

variable {first : Float} {others : List Float}

theorem stdError_pos_of_spreadsClearly (hfinite : ∀ v ∈ first :: others, v.isFinite = true)
    (hword : others.length + 1 < 2 ^ 64) (hdistances : distancesFinite (single first) others = true)
    (hspread : SpreadsClearly first others) : 0.0 < (ofValues first others).stdError := by
  obtain ⟨us, v, vs, rfl, hus, x, y, hx, hy, hlarge, hclear⟩ := hspread
  rw [List.length_append, List.length_cons] at hword
  rw [distancesFinite_append, Bool.and_eq_true] at hdistances
  obtain ⟨hbefore, hafter⟩ := hdistances
  have hsingle : (single first).count = 1 := rfl
  -- Up to `v` all values are equal, and from then on there are squares.
  have hconstant : (ofValues first us).IsConstant x :=
    (isConstant_single hx).foldl_insert (fun u hu => hx.of_beq (hus u hu)) (by omega)
  have hcentred : (ofValues first us).IsCentred :=
    (isCentred_single hx.isFinite).foldl_insert
      (fun u hu => hfinite u (by simp [hu])) hbefore (by omega)
  have hcount : (ofValues first us).count = us.length + 1 := count_ofValues first us
  change distancesFinite (ofValues first us) (v :: vs) = true at hafter
  rw [distancesFinite, Bool.and_eq_true] at hafter
  have hv : v.isFinite = true := hy.isFinite
  have hsquares := hconstant.exceeds_insert hy hlarge hclear hafter.1 (by omega)
  have hall := exceeds_foldl_insert hsquares (by norm_num) (hcentred.insert hv hafter.1 (by omega))
    (fun w hw => hfinite w (by simp [hw])) hafter.2 (by rw [count_insert]; omega)
  have hfold : ofValues first (us ++ v :: vs) =
      vs.foldl Accumulator.insert ((ofValues first us).insert v) := by
    rw [ofValues, List.foldl_append]
    rfl
  rw [← hfold] at hall
  have htotal : (ofValues first (us ++ v :: vs)).count = us.length + vs.length + 2 := by
    rw [count_ofValues, List.length_append, List.length_cons]
    omega
  exact stdError_pos_of_exceeds hall (by omega) (by omega)

end Lists

end Accumulator

end OnlineAggregation
