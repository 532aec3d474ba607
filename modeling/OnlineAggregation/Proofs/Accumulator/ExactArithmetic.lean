import OnlineAggregation.Mean.Accumulator
import Mathlib

/-!
# The recurrence in exact arithmetic

Over an ordered field nothing is rounded, and the summary that is kept value by value can be compared
with what is computed from the whole list in two passes. Main statement: count, mean, squared
deviations and range are those of the list, so they do not depend on the order of the values, and the
deviations vanish for equal values only.
-/

namespace OnlineAggregation.Accumulator

/-! ## §1 Deviations from a point -/

section Deviations

variable {α : Type} [Field α]

/-- The sum of the squared distances of the values `ys` from `c`. -/
def deviations (ys : List α) (c : α) : α :=
  (ys.map fun y => (y - c) ^ 2).sum

theorem deviations_append_singleton (ys : List α) (y c : α) :
    deviations (ys ++ [y]) c = deviations ys c + (y - c) ^ 2 := by
  simp [deviations]

/-- Moving the point away from `m` costs the square of the way for each value, and nothing else if
`m` is the mean. -/
theorem deviations_eq (ys : List α) (m c : α) :
    deviations ys c =
      deviations ys m + 2 * (m - c) * (ys.sum - ys.length * m) + ys.length * (m - c) ^ 2 := by
  induction ys with
  | nil => simp [deviations]
  | cons y ys ih =>
    simp only [deviations, List.map_cons, List.sum_cons, List.length_cons] at ih ⊢
    rw [ih]
    push_cast
    ring

theorem deviations_of_mean {ys : List α} {m : α} (hmean : m * ys.length = ys.sum) (c : α) :
    deviations ys c = deviations ys m + ys.length * (m - c) ^ 2 := by
  have hzero : ys.sum - ys.length * m = 0 := by rw [← hmean]; ring
  rw [deviations_eq ys m c, hzero, mul_zero, add_zero]

theorem deviations_perm {ys zs : List α} (h : ys.Perm zs) (c : α) :
    deviations ys c = deviations zs c :=
  (h.map _).sum_eq

/-- Welford's step: of the two distances that are multiplied one is from the old mean and one from
the new mean, and the product is what the new value and the move of the mean add. -/
private theorem squares_step {n m x c : α} (hn : n + 1 ≠ 0) (hc : c = m + (x - m) / (n + 1)) :
    n * (m - c) ^ 2 + (x - c) ^ 2 = (x - m) * (x - c) := by
  rw [hc]
  field_simp
  ring

variable [LinearOrder α] [IsStrictOrderedRing α]

theorem deviations_nonneg (ys : List α) (c : α) : 0 ≤ deviations ys c := by
  apply List.sum_nonneg
  intro d hd
  obtain ⟨y, -, rfl⟩ := List.mem_map.mp hd
  exact sq_nonneg _

/-- Only values at the point itself have no distance from it. -/
theorem deviations_eq_zero_iff (ys : List α) (c : α) :
    deviations ys c = 0 ↔ ∀ y ∈ ys, y = c := by
  induction ys with
  | nil => simp [deviations]
  | cons y ys ih =>
    have hsplit : deviations (y :: ys) c = (y - c) ^ 2 + deviations ys c := by simp [deviations]
    rw [hsplit, add_eq_zero_iff_of_nonneg (sq_nonneg _) (deviations_nonneg ys c), ih,
      List.forall_mem_cons, pow_eq_zero_iff two_ne_zero, sub_eq_zero]

end Deviations

/-! ## §2 What an accumulator says of a list -/

section Summaries

variable {α : Type} [Field α] [LinearOrder α] {a b : Accumulator α} {ys zs : List α}

/-- The accumulator has the count, the mean, the squared deviations and the ends of `ys`. -/
structure Summarises (a : Accumulator α) (ys : List α) : Prop where
  count_eq : a.count = ys.length
  mean_eq : a.mean = ys.sum / ys.length
  squares_eq : a.squares = deviations ys a.mean
  isLeast : IsLeast {y | y ∈ ys} a.least
  isGreatest : IsGreatest {y | y ∈ ys} a.greatest

namespace Summarises

theorem length_pos (h : a.Summarises ys) : 0 < ys.length :=
  List.length_pos_of_mem h.isLeast.1

/-- The accumulator is settled by what it says, whatever the order of the values. -/
theorem eq_of_perm (ha : a.Summarises ys) (hb : b.Summarises zs) (h : ys.Perm zs) : a = b := by
  have hmean : a.mean = b.mean := by rw [ha.mean_eq, hb.mean_eq, h.sum_eq, h.length_eq]
  have hset : {y | y ∈ ys} = {y | y ∈ zs} := Set.ext fun y => h.mem_iff
  have hcount : a.count = b.count := by rw [ha.count_eq, hb.count_eq, h.length_eq]
  have hsquares : a.squares = b.squares := by
    rw [ha.squares_eq, hb.squares_eq, hmean, deviations_perm h]
  have hleast : a.least = b.least := ha.isLeast.unique (hset ▸ hb.isLeast)
  have hgreatest : a.greatest = b.greatest := ha.isGreatest.unique (hset ▸ hb.isGreatest)
  cases a
  cases b
  simp_all

variable [IsStrictOrderedRing α]

theorem mean_mul_length (h : a.Summarises ys) : a.mean * ys.length = ys.sum := by
  have hlength : (ys.length : α) ≠ 0 := Nat.cast_ne_zero.mpr h.length_pos.ne'
  rw [h.mean_eq, div_mul_cancel₀ _ hlength]

theorem single (x : α) : (single x).Summarises [x] where
  count_eq := rfl
  mean_eq := by simp [Accumulator.single]
  squares_eq := by simp [Accumulator.single, deviations]
  isLeast := by simp [Accumulator.single]
  isGreatest := by simp [Accumulator.single]

/-- A further value is summarised with those before it. -/
theorem insert (h : a.Summarises ys) (x : α) : (a.insert x).Summarises (ys ++ [x]) := by
  have hcount : ((a.insert x).count : α) = ys.length + 1 := by
    rw [count_insert, h.count_eq, Nat.cast_succ]
  have hpos : (ys.length : α) + 1 ≠ 0 := Nat.cast_add_one_ne_zero _
  have hmean : (a.insert x).mean = a.mean + (x - a.mean) / (ys.length + 1) := by
    rw [← hcount]
    rfl
  -- The least and the greatest of a union are those of its parts.
  have hset : {y | y ∈ ys ++ [x]} = {y | y ∈ ys} ∪ {x} := by
    ext y
    simp [or_comm]
  refine ⟨?_, ?_, ?_, ?_, ?_⟩
  · rw [count_insert, h.count_eq, List.length_append, List.length_singleton]
  · rw [hmean, List.sum_append, List.sum_singleton, List.length_append, List.length_singleton,
      Nat.cast_succ, ← h.mean_mul_length]
    field_simp
    ring
  · have hsquares : (a.insert x).squares =
        a.squares + (x - a.mean) * (x - (a.insert x).mean) := rfl
    rw [hsquares, h.squares_eq, deviations_append_singleton,
      deviations_of_mean h.mean_mul_length (a.insert x).mean, add_assoc, squares_step hpos hmean]
  · have hleast : (a.insert x).least = min a.least x := (min_def_lt a.least x).symm
    rw [hleast, hset]
    exact h.isLeast.union isLeast_singleton
  · have hgreatest : (a.insert x).greatest = max a.greatest x := by
      rw [max_comm]
      exact (max_def_lt x a.greatest).symm
    rw [hgreatest, hset]
    exact h.isGreatest.union isGreatest_singleton

end Summarises

variable [IsStrictOrderedRing α]

/-- The accumulator of a list summarises it. -/
theorem summarises_ofValues (x : α) (xs : List α) : (ofValues x xs).Summarises (x :: xs) := by
  induction xs using List.reverseRecOn with
  | nil => exact .single x
  | append_singleton xs y ih =>
    rw [ofValues, List.foldl_append, ← List.cons_append]
    exact ih.insert y

end Summaries

/-! ## §3 Rational values -/

/-- **The recurrence is exact over the rationals**: the accumulator of a list has its count, its mean
and sum, its squared deviations from the mean as two passes give them, its least and greatest value,
and its unbiased variance. So the squares are not negative, vanish for equal values only, and the
order of the values does not matter. -/
theorem ofValues_exact (x : ℚ) (xs : List ℚ) :
    let a : Accumulator ℚ := ofValues x xs
    let ys := x :: xs
    let mean := ys.sum / ys.length
    a.count = ys.length ∧
    a.mean = mean ∧
    a.sum = ys.sum ∧
    a.squares = (ys.map fun y => (y - mean) ^ 2).sum ∧
    IsLeast {y | y ∈ ys} a.least ∧
    IsGreatest {y | y ∈ ys} a.greatest ∧
    a.variance = (if ys.length = 1 then 0 else a.squares / (ys.length - 1)) ∧
    0 ≤ a.squares ∧
    (a.squares = 0 ↔ ∀ y ∈ ys, ∀ z ∈ ys, y = z) ∧
    ∀ y zs, (y :: zs).Perm ys → ofValues y zs = a := by
  intro a ys mean
  have h : a.Summarises ys := summarises_ofValues x xs
  have hsquares : a.squares = deviations ys mean := h.squares_eq.trans (by rw [h.mean_eq])
  refine ⟨h.count_eq, h.mean_eq, ?_, hsquares, h.isLeast, h.isGreatest, ?_, ?_, ?_, ?_⟩
  · rw [sum, h.count_eq, h.mean_mul_length]
  · have hlength : a.count = xs.length + 1 := h.count_eq
    rw [variance, hlength]
    by_cases hone : xs.length = 0
    · rw [if_pos (by omega), if_pos (by simp [ys, hone]), Nat.cast_zero]
    · rw [if_neg (by omega), if_neg (by simpa [ys] using hone)]
      simp [ys]
  · rw [hsquares]
    exact deviations_nonneg ys mean
  · rw [hsquares, deviations_eq_zero_iff]
    constructor
    · intro hall y hy z hz
      rw [hall y hy, hall z hz]
    · -- Values that are all equal have that value as their mean.
      intro hall y hy
      have hsum : ys.sum = ys.length • y :=
        List.sum_eq_card_nsmul ys y fun z hz => hall z hz y hy
      have hpos : (ys.length : ℚ) ≠ 0 := Nat.cast_ne_zero.mpr h.length_pos.ne'
      rw [show mean = ys.sum / ys.length from rfl, hsum, nsmul_eq_mul, mul_div_cancel_left₀ _ hpos]
  · intro y zs hperm
    exact (summarises_ofValues y zs).eq_of_perm h hperm

end OnlineAggregation.Accumulator
