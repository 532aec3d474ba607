import OnlineAggregation.Proofs.Binary64.Mantissa

/-!
# The order of binary64 numbers

A number that is not NaN stands for a point of the extended real line. Main statements: comparing
two such numbers is comparing these points, and a comparison with NaN never holds.
-/

namespace OnlineAggregation.Binary64

open Float.Model Float.Model.UnpackedFloat

/-! ## §1 Readings on the extended line -/

/-- The point that a reading stands for; NaN stands for none. -/
noncomputable def extendedValue : UnpackedFloat → EReal
  | .infinity .positive => ⊤
  | .infinity .negative => ⊥
  | u => (finiteValue u : ℝ)

theorem isNaN_of_isFinite {u : UnpackedFloat} (hu : u.isFinite = true) : u.isNaN = false := by
  rcases isFinite_cases hu with ⟨s, rfl⟩ | ⟨s, m, e, hm, rfl⟩ <;> rfl

theorem extendedValue_of_isFinite {u : UnpackedFloat} (hu : u.isFinite = true) :
    extendedValue u = (finiteValue u : ℝ) := by
  rcases isFinite_cases hu with ⟨s, rfl⟩ | ⟨s, m, e, hm, rfl⟩ <;> rfl

private theorem magnitude_lt_of_exponent_lt {m n : ℕ} {e f : ℤ} (hm : m < 2 ^ 53)
    (he : -1074 ≤ e) (hn : 2 ^ 52 ≤ n ∨ f = -1074) (hef : e < f) :
    (m : ℝ) * 2 ^ e < n * 2 ^ f := by
  -- A larger exponent is not the least one, so its mantissa has the leading bit.
  have hlead : 2 ^ 52 ≤ n := hn.resolve_right (by omega)
  calc (m : ℝ) * 2 ^ e < 2 ^ (53 + e) := magnitude_lt_two_zpow hm e
    _ ≤ 2 ^ (52 + f) := zpow_le_zpow_right₀ one_le_two (by omega)
    _ ≤ n * 2 ^ f := two_zpow_le_magnitude hlead f

private theorem compares_magnitude {m n : ℕ} {e f : ℤ} {hm : 0 < m} {hn : 0 < n} {s t : Sign}
    (hu : Canonical (.finite s m e hm)) (hw : Canonical (.finite t n f hn)) :
    ((compare e f).then (compare m n)).Compares ((m : ℝ) * 2 ^ e) (n * 2 ^ f) := by
  obtain ⟨hmhigh, heleast, hmlow⟩ := hu
  obtain ⟨hnhigh, hfleast, hnlow⟩ := hw
  rcases lt_trichotomy e f with hlt | rfl | hgt
  · rw [Int.compare_eq_lt.mpr hlt]
    exact magnitude_lt_of_exponent_lt hmhigh heleast hnlow hlt
  · rw [Int.compare_eq_eq.mpr rfl]
    have hpow := two_zpow_pos e
    rcases lt_trichotomy m n with hlt | rfl | hgt
    · rw [Nat.compare_eq_lt.mpr hlt]
      exact mul_lt_mul_of_pos_right (Nat.cast_lt.mpr hlt) hpow
    · rw [Nat.compare_eq_eq.mpr rfl]
      rfl
    · rw [Nat.compare_eq_gt.mpr hgt]
      exact mul_lt_mul_of_pos_right (Nat.cast_lt.mpr hgt) hpow
  · rw [Int.compare_eq_gt.mpr hgt]
    exact magnitude_lt_of_exponent_lt hnhigh hfleast hmlow hgt

private theorem compares_neg {o : Ordering} {x y : ℝ} (h : o.Compares x y) :
    o.swap.Compares (-x) (-y) := by
  cases o
  · exact neg_lt_neg (show x < y from h)
  · exact congrArg Neg.neg (show x = y from h)
  · exact neg_lt_neg (show y < x from h)

private theorem compares_coe {o : Ordering} {x y : ℝ} (h : o.Compares x y) :
    o.Compares (x : EReal) (y : EReal) := by
  cases o
  · exact EReal.coe_lt_coe_iff.mpr (show x < y from h)
  · exact congrArg Real.toEReal (show x = y from h)
  · exact EReal.coe_lt_coe_iff.mpr (show y < x from h)

private theorem compares_finite {u w : UnpackedFloat} (hu : Canonical u) (hw : Canonical w)
    (hfu : u.isFinite = true) (hfw : w.isFinite = true) :
    ∃ o, u.compare w = some o ∧ o.Compares (finiteValue u) (finiteValue w) := by
  rcases isFinite_cases hfu with ⟨s, rfl⟩ | ⟨s, m, e, hm, rfl⟩
  · rcases isFinite_cases hfw with ⟨t, rfl⟩ | ⟨t, n, f, hn, rfl⟩
    · exact ⟨.eq, rfl, rfl⟩
    · cases t with
      | positive => exact ⟨.lt, rfl, by simpa [finiteValue, signFactor] using magnitude_pos hn f⟩
      | negative => exact ⟨.gt, rfl, by simpa [finiteValue, signFactor] using magnitude_pos hn f⟩
  · rcases isFinite_cases hfw with ⟨t, rfl⟩ | ⟨t, n, f, hn, rfl⟩
    · cases s with
      | positive => exact ⟨.gt, rfl, by simpa [finiteValue, signFactor] using magnitude_pos hm e⟩
      | negative => exact ⟨.lt, rfl, by simpa [finiteValue, signFactor] using magnitude_pos hm e⟩
    · have hmagnitude := compares_magnitude hu hw
      have hm' : (0 : ℝ) < m * 2 ^ e := magnitude_pos hm e
      have hn' : (0 : ℝ) < n * 2 ^ f := magnitude_pos hn f
      -- Equal signs compare magnitudes, backwards below zero; else the signs decide.
      cases s <;> cases t
      case negative.negative =>
        refine ⟨_, rfl, ?_⟩
        simpa only [finiteValue, signFactor, neg_one_mul] using compares_neg hmagnitude
      case negative.positive =>
        refine ⟨.lt, rfl, ?_⟩
        simp only [finiteValue, signFactor, Ordering.Compares]
        linarith
      case positive.negative =>
        refine ⟨.gt, rfl, ?_⟩
        simp only [finiteValue, signFactor, Ordering.Compares]
        linarith
      case positive.positive =>
        refine ⟨_, rfl, ?_⟩
        simpa only [finiteValue, signFactor, one_mul] using hmagnitude

/-- Comparing canonical readings is comparing the points they stand for. -/
theorem compares_extendedValue {u w : UnpackedFloat} (hu : Canonical u) (hw : Canonical w)
    (hnu : u.isNaN = false) (hnw : w.isNaN = false) :
    ∃ o, u.compare w = some o ∧ o.Compares (extendedValue u) (extendedValue w) := by
  by_cases hfinite : u.isFinite = true ∧ w.isFinite = true
  · obtain ⟨hfu, hfw⟩ := hfinite
    obtain ⟨o, ho, hcompares⟩ := compares_finite hu hw hfu hfw
    refine ⟨o, ho, ?_⟩
    rw [extendedValue_of_isFinite hfu, extendedValue_of_isFinite hfw]
    exact compares_coe hcompares
  · -- One of the two lies at an end of the line.
    cases u <;> cases w <;> simp [UnpackedFloat.isFinite, UnpackedFloat.isNaN] at hfinite hnu hnw
    case infinity.infinity s t =>
      cases s <;> cases t
      · exact ⟨.eq, rfl, rfl⟩
      · exact ⟨.lt, rfl, bot_lt_top⟩
      · exact ⟨.gt, rfl, bot_lt_top⟩
      · exact ⟨.eq, rfl, rfl⟩
    case infinity.zero s t =>
      cases s
      · exact ⟨.lt, rfl, EReal.bot_lt_coe _⟩
      · exact ⟨.gt, rfl, EReal.coe_lt_top _⟩
    case infinity.finite s t n f hn =>
      cases s
      · exact ⟨.lt, rfl, EReal.bot_lt_coe _⟩
      · exact ⟨.gt, rfl, EReal.coe_lt_top _⟩
    case zero.infinity s t =>
      cases t
      · exact ⟨.gt, rfl, EReal.bot_lt_coe _⟩
      · exact ⟨.lt, rfl, EReal.coe_lt_top _⟩
    case finite.infinity s m e hm t =>
      cases t
      · cases s <;> exact ⟨.gt, rfl, EReal.bot_lt_coe _⟩
      · cases s <;> exact ⟨.lt, rfl, EReal.coe_lt_top _⟩

/-! ## §2 Numbers on the extended line -/

/-- The number `x` stands for the point `a`. -/
structure Reads (x : Float) (a : EReal) : Prop where
  isNaN_eq : x.isNaN = false
  extendedValue_eq : extendedValue x.toModel.unpack = a

variable {x y : Float} {a b : EReal}

theorem Reads.unique (hx : Reads x a) (hx' : Reads x b) : a = b :=
  hx.extendedValue_eq.symm.trans hx'.extendedValue_eq

theorem exists_reads (hx : x.isNaN = false) : ∃ a, Reads x a :=
  ⟨_, hx, rfl⟩

/-- The finite numbers are those that stand for a real number. -/
theorem isFinite_iff_exists_reads : x.isFinite = true ↔ ∃ r : ℝ, Reads x r := by
  constructor
  · intro hfinite
    exact ⟨_, isNaN_of_isFinite hfinite, extendedValue_of_isFinite hfinite⟩
  · rintro ⟨r, hnan, hvalue⟩
    change x.toModel.unpack.isNaN = false at hnan
    change x.toModel.unpack.isFinite = true
    cases hu : x.toModel.unpack with
    | zero s => rfl
    | finite s m e hm => rfl
    | notANumber => simp [hu, UnpackedFloat.isNaN] at hnan
    | infinity s =>
      -- The ends of the line are no real numbers.
      rw [hu] at hvalue
      cases s
      · exact absurd hvalue.symm (EReal.coe_ne_bot r)
      · exact absurd hvalue.symm (EReal.coe_ne_top r)

theorem Reads.isFinite {r : ℝ} (hx : Reads x r) : x.isFinite = true :=
  isFinite_iff_exists_reads.mpr ⟨r, hx⟩

theorem isFinite_eq_false_iff : x.isFinite = false ↔ x.isNaN = true ∨ x.isInf = true := by
  change x.toModel.unpack.isFinite = false ↔
    x.toModel.unpack.isNaN = true ∨ x.toModel.unpack.isInf = true
  cases x.toModel.unpack <;>
    simp [UnpackedFloat.isFinite, UnpackedFloat.isNaN, UnpackedFloat.isInf]

private theorem compares_reads (hx : Reads x a) (hy : Reads y b) :
    ∃ o, x.toModel.unpack.compare y.toModel.unpack = some o ∧ o.Compares a b := by
  obtain ⟨hnx, rfl⟩ := hx
  obtain ⟨hny, rfl⟩ := hy
  exact compares_extendedValue (canonical_unpack _).1 (canonical_unpack _).1 hnx hny

private theorem le_iff_unpack : x ≤ y ↔ x.toModel.unpack.le y.toModel.unpack = true :=
  decide_eq_true_iff

private theorem lt_iff_unpack : x < y ↔ x.toModel.unpack.lt y.toModel.unpack = true :=
  decide_eq_true_iff

/-- Numbers are in order exactly if their points are. -/
theorem Reads.le_iff (hx : Reads x a) (hy : Reads y b) : x ≤ y ↔ a ≤ b := by
  obtain ⟨o, ho, hcompares⟩ := compares_reads hx hy
  rw [le_iff_unpack, UnpackedFloat.le, ho, ← hcompares.ne_gt]
  cases o <;> simp

theorem Reads.le_self (hx : Reads x a) : x ≤ x :=
  (hx.le_iff hx).mpr le_rfl

theorem Reads.lt_iff (hx : Reads x a) (hy : Reads y b) : x < y ↔ a < b := by
  obtain ⟨o, ho, hcompares⟩ := compares_reads hx hy
  rw [lt_iff_unpack, UnpackedFloat.lt, ho, ← hcompares.eq_lt]
  cases o <;> simp

/-- Numbers are numerically equal exactly if they stand for the same point. -/
theorem Reads.beq_iff (hx : Reads x a) (hy : Reads y b) : (x == y) = true ↔ a = b := by
  obtain ⟨o, ho, hcompares⟩ := compares_reads hx hy
  change x.toModel.unpack.beq y.toModel.unpack = true ↔ a = b
  rw [UnpackedFloat.beq, ho, ← hcompares.eq_eq]
  cases o <;> simp

/-- Choosing the lower of two numbers chooses the lower point. -/
theorem Reads.ite_lt_min (hx : Reads x a) (hy : Reads y b) :
    Reads (if x < y then x else y) (min a b) := by
  by_cases hlt : x < y
  · rw [if_pos hlt, min_eq_left ((hx.lt_iff hy).mp hlt).le]
    exact hx
  · rw [if_neg hlt, min_eq_right (not_lt.mp (mt (hx.lt_iff hy).mpr hlt))]
    exact hy

/-- Choosing the higher of two numbers chooses the higher point. -/
theorem Reads.ite_lt_max (hx : Reads x a) (hy : Reads y b) :
    Reads (if y < x then x else y) (max a b) := by
  by_cases hlt : y < x
  · rw [if_pos hlt, max_eq_left ((hy.lt_iff hx).mp hlt).le]
    exact hx
  · rw [if_neg hlt, max_eq_right (not_lt.mp (mt (hy.lt_iff hx).mpr hlt))]
    exact hy

private theorem compare_notANumber (u : UnpackedFloat) :
    UnpackedFloat.compare .notANumber u = none ∧ UnpackedFloat.compare u .notANumber = none := by
  cases u <;> exact ⟨rfl, rfl⟩

private theorem isNaN_eq_false_of_compare {o : Ordering}
    (h : x.toModel.unpack.compare y.toModel.unpack = some o) :
    x.isNaN = false ∧ y.isNaN = false := by
  change x.toModel.unpack.isNaN = false ∧ y.toModel.unpack.isNaN = false
  constructor
  · cases hu : x.toModel.unpack <;> try rfl
    simp [hu, (compare_notANumber _).1] at h
  · cases hu : y.toModel.unpack <;> try rfl
    simp [hu, (compare_notANumber _).2] at h

/-- Numbers in order are not NaN. -/
theorem isNaN_eq_false_of_le (h : x ≤ y) : x.isNaN = false ∧ y.isNaN = false := by
  rw [le_iff_unpack, UnpackedFloat.le] at h
  -- An order needs a result of the comparison, and with NaN there is none.
  cases ho : x.toModel.unpack.compare y.toModel.unpack with
  | none => simp [ho] at h
  | some o => exact isNaN_eq_false_of_compare ho

theorem isNaN_eq_false_of_lt (h : x < y) : x.isNaN = false ∧ y.isNaN = false := by
  rw [lt_iff_unpack, UnpackedFloat.lt] at h
  cases ho : x.toModel.unpack.compare y.toModel.unpack with
  | none => simp [ho] at h
  | some o => exact isNaN_eq_false_of_compare ho

/-- Equal numbers are not NaN. -/
theorem isNaN_eq_false_of_beq (h : (x == y) = true) : x.isNaN = false ∧ y.isNaN = false := by
  change x.toModel.unpack.beq y.toModel.unpack = true at h
  rw [UnpackedFloat.beq] at h
  cases ho : x.toModel.unpack.compare y.toModel.unpack with
  | none => simp [ho] at h
  | some o => exact isNaN_eq_false_of_compare ho

/-- Equal numbers stand for the same point. -/
theorem Reads.of_beq (hx : Reads x a) (h : (x == y) = true) : Reads y a := by
  obtain ⟨b, hb⟩ := exists_reads (isNaN_eq_false_of_beq h).2
  rw [(hx.beq_iff hb).mp h]
  exact hb

/-- What lies between two finite numbers is finite. -/
theorem exists_reads_of_mem {v : Float} {l u : ℝ} (hx : Reads x l) (hy : Reads y u) (hxv : x ≤ v)
    (hvy : v ≤ y) : ∃ t : ℝ, l ≤ t ∧ t ≤ u ∧ Reads v t := by
  obtain ⟨a, ha⟩ := exists_reads (isNaN_eq_false_of_le hxv).2
  have hlow : (l : EReal) ≤ a := (hx.le_iff ha).mp hxv
  have hhigh : a ≤ (u : EReal) := (ha.le_iff hy).mp hvy
  cases a with
  | bot => exact absurd hlow (not_le.mpr (EReal.bot_lt_coe l))
  | top => exact absurd hhigh (not_le.mpr (EReal.coe_lt_top u))
  | coe t => exact ⟨t, EReal.coe_le_coe_iff.mp hlow, EReal.coe_le_coe_iff.mp hhigh, ha⟩

end OnlineAggregation.Binary64
