import OnlineAggregation.Decimal.Shortest
import Mathlib

/-!
# The size and the place of the shortest decimal

Whatever grid the search ends at, what it writes is small enough to be read. Main statements: the
shortest decimal lies in the interval of numbers that round to the one it is written for, so it is
at most half of the last bit away from that; its coefficient has 64 bits and is zero for zero only,
and its exponent is within the three-digit range.
-/

namespace OnlineAggregation.Decimal

/-! ## §1 The interval -/

/-- How far down the numbers that round to `v` reach, in quarters of its last bit. -/
def Magnitude.reach (v : Magnitude) : ℕ :=
  if v.isStepDown then 1 else 2

theorem Magnitude.reach_mem (v : Magnitude) : 1 ≤ v.reach ∧ v.reach ≤ 2 := by
  unfold reach
  split <;> omega

/-- The real numbers that round to `v`. The ends are among them only if the mantissa is even. -/
structure Magnitude.Covers (v : Magnitude) (x : ℝ) : Prop where
  lower_le : (4 * v.mantissa - v.reach) * (2 : ℝ) ^ (v.exponent - 2) ≤ x
  le_upper : x ≤ (4 * v.mantissa + 2) * (2 : ℝ) ^ (v.exponent - 2)
  strict : v.mantissa % 2 = 1 →
    (4 * v.mantissa - v.reach) * (2 : ℝ) ^ (v.exponent - 2) < x ∧
      x < (4 * v.mantissa + 2) * (2 : ℝ) ^ (v.exponent - 2)

/-- Only zero rounds to zero. -/
theorem Magnitude.Covers.pos {v : Magnitude} {x : ℝ} (h : v.Covers x) (hv : v.mantissa ≠ 0) :
    0 < x := by
  have hmantissa : (1 : ℝ) ≤ v.mantissa := by exact_mod_cast Nat.one_le_iff_ne_zero.mpr hv
  have hreach : (v.reach : ℝ) ≤ 2 := by exact_mod_cast v.reach_mem.2
  have hunit : (0 : ℝ) < 2 ^ (v.exponent - 2) := zpow_pos two_pos _
  refine lt_of_lt_of_le (mul_pos ?_ hunit) h.lower_le
  linarith

/-! ## §2 Grids on the real line -/

theorem zpow_eq_div {b : ℝ} (hb : b ≠ 0) (k : ℤ) :
    b ^ k = b ^ k.toNat / b ^ (-k).toNat := by
  have hsplit : k = (k.toNat : ℤ) - (-k).toNat := by omega
  conv_lhs => rw [hsplit, zpow_sub₀ hb, zpow_natCast, zpow_natCast]

/-- A half of the last bit and the whole of it in quarters, the common unit of a grid. -/
theorem two_zpow_quarters (e : ℤ) :
    (2 : ℝ) ^ (e - 1) = 2 * 2 ^ (e - 2) ∧ (2 : ℝ) ^ e = 4 * 2 ^ (e - 2) := by
  constructor
  · rw [← zpow_one_add₀ two_ne_zero]
    congr 1
    ring
  · rw [show (e : ℤ) = 2 + (e - 2) by ring, zpow_add₀ two_ne_zero]
    norm_num

namespace Grid

variable (v : Magnitude) (k : ℤ) {n : ℕ}

theorem spacing_pos : 0 < (around v k).spacing :=
  Nat.mul_pos (Nat.pow_pos (by norm_num)) (Nat.pow_pos (by norm_num))

/-- A point of the scale is its multiple of a quarter of the last bit. -/
private theorem scale_div_spacing (q : ℕ) :
    ((q * (Nat.pow 2 (v.exponent - 2).toNat * Nat.pow 10 (-k).toNat) : ℕ) : ℝ) /
        (around v k).spacing = q * 2 ^ (v.exponent - 2) / 10 ^ k := by
  rw [zpow_eq_div two_ne_zero, zpow_eq_div (by norm_num : (10 : ℝ) ≠ 0) k]
  change ((q * (2 ^ (v.exponent - 2).toNat * 10 ^ (-k).toNat) : ℕ) : ℝ) /
    ((10 ^ k.toNat * 2 ^ (-(v.exponent - 2)).toNat : ℕ) : ℝ) = _
  push_cast
  field_simp

theorem value_div_spacing :
    ((around v k).value : ℝ) / (around v k).spacing = v.mantissa * 2 ^ v.exponent / 10 ^ k := by
  have hscale := scale_div_spacing v k (4 * v.mantissa)
  rw [show (around v k).value = 4 * v.mantissa *
    (Nat.pow 2 (v.exponent - 2).toNat * Nat.pow 10 (-k).toNat) from rfl, hscale]
  rw [zpow_sub₀ two_ne_zero]
  push_cast
  norm_num
  ring

/-- Comparing on the scale is comparing on the real line. -/
private theorem scale_le_iff (q n : ℕ) :
    q * (Nat.pow 2 (v.exponent - 2).toNat * Nat.pow 10 (-k).toNat) ≤ n * (around v k).spacing ↔
      (q : ℝ) * 2 ^ (v.exponent - 2) ≤ n * 10 ^ k := by
  have hspacing : (0 : ℝ) < (around v k).spacing := Nat.cast_pos.mpr (spacing_pos v k)
  have hten : (0 : ℝ) < 10 ^ k := zpow_pos (by norm_num) k
  rw [← div_le_iff₀ hten, ← scale_div_spacing, div_le_iff₀ hspacing]
  exact_mod_cast Iff.rfl

private theorem le_scale_iff (q n : ℕ) :
    n * (around v k).spacing ≤ q * (Nat.pow 2 (v.exponent - 2).toNat * Nat.pow 10 (-k).toNat) ↔
      (n : ℝ) * 10 ^ k ≤ q * 2 ^ (v.exponent - 2) := by
  have hspacing : (0 : ℝ) < (around v k).spacing := Nat.cast_pos.mpr (spacing_pos v k)
  have hten : (0 : ℝ) < 10 ^ k := zpow_pos (by norm_num) k
  rw [← le_div_iff₀ hten, ← scale_div_spacing, le_div_iff₀ hspacing]
  exact_mod_cast Iff.rfl

/-- The point below the number is less than one spacing away. -/
theorem value_sub_le : (v.mantissa : ℝ) * 2 ^ v.exponent - 10 ^ k ≤
    ((around v k).value / (around v k).spacing : ℕ) * 10 ^ k := by
  have hten : (0 : ℝ) < 10 ^ k := zpow_pos (by norm_num) k
  have hfloor := (Nat.lt_floor_add_one (((around v k).value : ℝ) / (around v k).spacing)).le
  rw [Nat.floor_div_eq_div, value_div_spacing, div_le_iff₀ hten, add_one_mul] at hfloor
  linarith

variable {v k}

/-- The points of a grid that are let through are in the interval. -/
theorem covers_of_admits (hv : v.mantissa ≠ 0)
    (h : (around v k).admits (n * (around v k).spacing) = true) : v.Covers (n * 10 ^ k) := by
  have hreach := v.reach_mem
  have hcast : ((4 * v.mantissa - v.reach : ℕ) : ℝ) = 4 * v.mantissa - v.reach := by
    rw [Nat.cast_sub (by omega)]
    push_cast
    rfl
  have hcast' : ((4 * v.mantissa + 2 : ℕ) : ℝ) = 4 * v.mantissa + 2 := by push_cast; rfl
  have hlower := scale_le_iff v k (4 * v.mantissa - v.reach) n
  have hupper := le_scale_iff v k (4 * v.mantissa + 2) n
  have hlower' := le_scale_iff v k (4 * v.mantissa - v.reach) n
  have hupper' := scale_le_iff v k (4 * v.mantissa + 2) n
  rw [hcast] at hlower hlower'
  rw [hcast'] at hupper hupper'
  have hclosed : (around v k).closed = decide (v.mantissa % 2 = 0) := rfl
  unfold admits at h
  -- An even mantissa has the ends of its interval rounded to it, an odd one has not.
  by_cases heven : v.mantissa % 2 = 0
  · simp only [hclosed, heven, decide_true, if_true, Bool.and_eq_true, decide_eq_true_eq] at h
    exact ⟨hlower.mp h.1, hupper.mp h.2, fun hodd => absurd hodd (by omega)⟩
  · simp only [hclosed, heven, decide_false, Bool.false_eq_true, if_false, Bool.and_eq_true,
      decide_eq_true_eq] at h
    have hlow := not_le.mp (mt hlower'.mpr (not_le.mpr h.1))
    have hhigh := not_le.mp (mt hupper'.mpr (not_le.mpr h.2))
    exact ⟨hlow.le, hhigh.le, fun _ => ⟨hlow, hhigh⟩⟩

/-- So is the point below the number on a grid that is finer than the interval. -/
theorem covers_below (hfine : (10 : ℝ) ^ k < 2 ^ (v.exponent - 2)) :
    v.Covers (((around v k).value / (around v k).spacing : ℕ) * 10 ^ k) := by
  have hbelow := value_sub_le v k
  have habove : (((around v k).value / (around v k).spacing : ℕ) : ℝ) * 10 ^ k ≤
      (4 * v.mantissa : ℕ) * 2 ^ (v.exponent - 2) :=
    (le_scale_iff v k (4 * v.mantissa) _).mp (Nat.div_mul_le_self _ _)
  have hunit : (0 : ℝ) < 2 ^ (v.exponent - 2) := zpow_pos two_pos _
  have hreach : (1 : ℝ) ≤ v.reach := by exact_mod_cast v.reach_mem.1
  have hdown : (2 : ℝ) ^ (v.exponent - 2) ≤ v.reach * 2 ^ (v.exponent - 2) :=
    le_mul_of_one_le_left hunit.le hreach
  rw [(two_zpow_quarters v.exponent).2] at hbelow
  rw [Nat.cast_mul, Nat.cast_ofNat] at habove
  have hlow : (4 * (v.mantissa : ℝ) - v.reach) * 2 ^ (v.exponent - 2) <
      ((around v k).value / (around v k).spacing : ℕ) * 10 ^ k := by linarith
  have hhigh : ((around v k).value / (around v k).spacing : ℕ) * 10 ^ k <
      (4 * (v.mantissa : ℝ) + 2) * 2 ^ (v.exponent - 2) := by linarith
  exact ⟨hlow.le, hhigh.le, fun _ => ⟨hlow, hhigh⟩⟩

/-- A pick is one of the two points around the number. -/
theorem pick?_le {g : Grid} {tie : Tie} {point : ℕ} (h : g.pick? tie = some point) :
    point ≤ g.value / g.spacing + 1 := by
  unfold pick? at h
  simp only at h
  split at h
  · cases h
    split <;> omega
  · cases h
    omega
  · cases h
    omega
  · cases h

end Grid

/-! ## §3 The search -/

/-- What the search has found, when it looks at powers of ten down to the least one. -/
structure Scaled.Found (s : Scaled) (v : Magnitude) (least greatest : ℤ) : Prop where
  least_le : least ≤ s.exponent
  le_greatest : s.exponent ≤ greatest
  coefficient_le : s.coefficient ≤
    (Grid.around v s.exponent).value / (Grid.around v s.exponent).spacing + 1

theorem searchFrom_found (v : Magnitude) (tie : Tie) (fuel : ℕ) (k : ℤ) :
    (searchFrom v tie fuel k).Found v (k - fuel) k := by
  induction fuel generalizing k with
  | zero => exact ⟨by simp [searchFrom], by simp [searchFrom], by simp [searchFrom]⟩
  | succ fuel ih =>
    rw [searchFrom]
    split
    · rename_i point hpick
      exact ⟨by push_cast; omega, le_rfl, Grid.pick?_le hpick⟩
    · obtain ⟨hleast, hgreatest, hcoefficient⟩ := ih (k - 1)
      exact ⟨by push_cast; omega, by omega, hcoefficient⟩

/-- The search stops inside the interval, at the latest on its last grid, if that is fine enough. -/
theorem covers_searchFrom {v : Magnitude} (hv : v.mantissa ≠ 0) (tie : Tie) (fuel : ℕ) (k : ℤ)
    (hfine : (10 : ℝ) ^ (k - fuel) < 2 ^ (v.exponent - 2)) :
    v.Covers ((searchFrom v tie fuel k).coefficient * 10 ^ (searchFrom v tie fuel k).exponent) := by
  induction fuel generalizing k with
  | zero =>
    rw [Nat.cast_zero, sub_zero] at hfine
    exact Grid.covers_below hfine
  | succ fuel ih =>
    rw [searchFrom]
    split
    · rename_i point hpick
      exact Grid.covers_of_admits hv (Grid.admits_of_pick? hpick)
    · have hlast : k - ((fuel + 1 : ℕ) : ℤ) = k - 1 - fuel := by push_cast; ring
      rw [hlast] at hfine
      exact ih (k - 1) hfine

/-! ## §4 Zeros at the end -/

namespace Scaled

/-- Dropping zeros keeps the value: the coefficient shrinks and the exponent grows. -/
theorem trim_spec (fuel : ℕ) (s : Scaled) :
    (s.trim fuel).coefficient ≤ s.coefficient ∧ s.exponent ≤ (s.trim fuel).exponent ∧
      (s.trim fuel).exponent ≤ s.exponent + fuel ∧
      (s.coefficient ≠ 0 → (s.trim fuel).coefficient ≠ 0) ∧
      ((s.trim fuel).coefficient : ℝ) * 10 ^ (s.trim fuel).exponent =
        s.coefficient * 10 ^ s.exponent := by
  induction fuel generalizing s with
  | zero => simp [trim]
  | succ fuel ih =>
    rw [trim]
    split
    · rename_i hzeros
      obtain ⟨hnonzero, hdigit⟩ := hzeros
      obtain ⟨hcoefficient, hleast, hgreatest, hnonzero', hvalue⟩ :=
        ih ⟨s.coefficient / 10, s.exponent + 1⟩
      dsimp only at hcoefficient hleast hgreatest hnonzero' hvalue
      refine ⟨by omega, by omega, by push_cast; omega, fun _ => hnonzero' (by omega), ?_⟩
      have hwhole : s.coefficient = 10 * (s.coefficient / 10) := by omega
      have hcast : (s.coefficient : ℝ) = 10 * (s.coefficient / 10 : ℕ) := by exact_mod_cast hwhole
      rw [hvalue, hcast, zpow_add_one₀ (by norm_num)]
      ring
    · exact ⟨le_rfl, le_rfl, by push_cast; omega, id, rfl⟩

end Scaled

/-! ## §5 Powers of two and of ten -/

/-- The starting power brackets a power of two between two powers of ten. -/
private def brackets (t : ℤ) : Bool :=
  let p := t * 30103 / 100000 + 1
  Nat.pow 2 (t + 1).toNat * Nat.pow 10 (-p).toNat ≤
      4 * (Nat.pow 10 p.toNat * Nat.pow 2 (-(t + 1)).toNat) &&
    Nat.pow 10 p.toNat * Nat.pow 2 (-t).toNat ≤
      11 * (Nat.pow 2 t.toNat * Nat.pow 10 (-p).toNat)

-- One comparison of whole numbers for each exponent of the format.
private theorem brackets_all : ∀ i : Fin 2098, brackets (i - 1074) = true := by
  decide +kernel

private theorem two_zpow_mem {t : ℤ} (hleast : -1074 ≤ t) (hmost : t ≤ 1023) :
    (2 : ℝ) ^ (t + 1) ≤ 4 * 10 ^ (t * 30103 / 100000 + 1) ∧
      (10 : ℝ) ^ (t * 30103 / 100000 + 1) ≤ 11 * 2 ^ t := by
  have hcheck := brackets_all ⟨(t + 1074).toNat, by omega⟩
  have hindex : (((⟨(t + 1074).toNat, by omega⟩ : Fin 2098) : ℕ) : ℤ) - 1074 = t := by
    change ((t + 1074).toNat : ℤ) - 1074 = t
    omega
  rw [hindex, brackets, Bool.and_eq_true, decide_eq_true_iff, decide_eq_true_iff] at hcheck
  obtain ⟨hlow, hhigh⟩ := hcheck
  set p := t * 30103 / 100000 + 1
  have hten : (10 : ℝ) ≠ 0 := by norm_num
  rw [zpow_eq_div two_ne_zero (t + 1), zpow_eq_div two_ne_zero t, zpow_eq_div hten p]
  constructor
  · rw [mul_div_assoc', div_le_div_iff₀ (by positivity) (by positivity), mul_assoc]
    exact_mod_cast hlow
  · rw [mul_div_assoc', div_le_div_iff₀ (by positivity) (by positivity), mul_assoc]
    exact_mod_cast hhigh

/-- The leading bit says how large a number is. -/
private theorem value_mem_zpow {v : Magnitude} (hv : v.mantissa ≠ 0) :
    (2 : ℝ) ^ (v.mantissa.log2 + v.exponent) ≤ v.mantissa * 2 ^ v.exponent ∧
      (v.mantissa : ℝ) * 2 ^ v.exponent ≤ 2 ^ (v.mantissa.log2 + v.exponent + 1) := by
  have hlead : (2 : ℝ) ^ (v.mantissa.log2 : ℤ) ≤ v.mantissa := by
    exact_mod_cast Nat.log2_self_le hv
  have hlead' : (v.mantissa : ℝ) ≤ 2 ^ (v.mantissa.log2 + 1 : ℤ) := by
    exact_mod_cast Nat.lt_log2_self.le
  have hpow : (0 : ℝ) < 2 ^ v.exponent := zpow_pos two_pos _
  rw [add_right_comm, zpow_add₀ two_ne_zero, zpow_add₀ two_ne_zero]
  exact ⟨mul_le_mul_of_nonneg_right hlead hpow.le, mul_le_mul_of_nonneg_right hlead' hpow.le⟩

/-! ## §6 The shortest decimal -/

/-- A decimal that was written for a number of the format. -/
structure Scaled.Fits (s : Scaled) (v : Magnitude) : Prop where
  coefficient_lt : s.coefficient < 2 ^ 63
  least_le : -342 ≤ s.exponent
  le_greatest : s.exponent ≤ 327
  zero_exponent : s.coefficient = 0 → s.exponent = 0
  le_upper : (s.coefficient : ℝ) * 10 ^ s.exponent ≤ (4 * v.mantissa + 2) * 2 ^ (v.exponent - 2)

section Search

variable {v : Magnitude} {s : Scaled}

/-- The search starts near the number, above the least and below the greatest power of ten. -/
private theorem startingPower_spec (hv : v.mantissa ≠ 0) (hmantissa : v.mantissa < 2 ^ 53)
    (hleast : -1074 ≤ v.exponent) (hmost : v.exponent ≤ 971) :
    -324 ≤ startingPower v ∧ startingPower v ≤ 309 ∧
      (v.mantissa : ℝ) * 2 ^ v.exponent ≤ 4 * 10 ^ startingPower v ∧
      (10 : ℝ) ^ startingPower v ≤ 11 * (v.mantissa * 2 ^ v.exponent) := by
  obtain ⟨t, ht⟩ : ∃ t : ℤ, t = v.mantissa.log2 + v.exponent := ⟨_, rfl⟩
  have hlog : v.mantissa.log2 < 53 := (Nat.log2_lt hv).mpr hmantissa
  have hstart : startingPower v = t * 30103 / 100000 + 1 := by
    rw [startingPower, ht]
    rfl
  obtain ⟨hlow, hhigh⟩ := value_mem_zpow hv
  rw [← ht] at hlow hhigh
  obtain ⟨hupper, hlower⟩ := two_zpow_mem (t := t) (by omega) (by omega)
  rw [hstart]
  exact ⟨by omega, by omega, hhigh.trans hupper, by linarith⟩

private theorem ten_zpow_add (n : ℕ) (k : ℤ) : (10 : ℝ) ^ (k + n) = 10 ^ n * 10 ^ k := by
  rw [zpow_add₀ (by norm_num), zpow_natCast, mul_comm]

/-- Eighteen digits down, the number is a quotient of about that many digits. -/
private theorem Scaled.Found.coefficient_lt {start greatest : ℤ}
    (h : s.Found v (start - 18) greatest)
    (hupper : (v.mantissa : ℝ) * 2 ^ v.exponent ≤ 4 * 10 ^ start) : s.coefficient < 2 ^ 63 := by
  have hquotient : ((Grid.around v s.exponent).value : ℝ) / (Grid.around v s.exponent).spacing ≤
      4 * 10 ^ 18 := by
    rw [Grid.value_div_spacing, div_le_iff₀ (zpow_pos (by norm_num) _)]
    calc (v.mantissa : ℝ) * 2 ^ v.exponent ≤ 4 * 10 ^ start := hupper
      _ ≤ 4 * 10 ^ (s.exponent + (18 : ℕ)) := by
          have hstart : start ≤ s.exponent + (18 : ℕ) := by
            have hleast := h.least_le
            push_cast
            omega
          gcongr
          norm_num
      _ = 4 * 10 ^ 18 * 10 ^ s.exponent := by rw [ten_zpow_add, mul_assoc]
  have hfloor : (Grid.around v s.exponent).value / (Grid.around v s.exponent).spacing ≤
      4 * 10 ^ 18 := by
    exact_mod_cast Nat.cast_div_le.trans hquotient
  have hcoefficient := h.coefficient_le
  omega

/-- Eighteen digits down the grid is much finer than the last bit. -/
private theorem ten_zpow_start_lt (hmantissa : v.mantissa < 2 ^ 53) {start : ℤ}
    (hlower : (10 : ℝ) ^ start ≤ 11 * (v.mantissa * 2 ^ v.exponent)) :
    (10 : ℝ) ^ (start - (18 : ℕ)) < 2 ^ (v.exponent - 2) := by
  have hfar : (10 : ℝ) ^ start = 10 ^ 18 * 10 ^ (start - (18 : ℕ)) := by
    rw [← ten_zpow_add]
    congr 1
    push_cast
    ring
  have hsmall : (v.mantissa : ℝ) ≤ 2 ^ 53 := by exact_mod_cast hmantissa.le
  have hsize : (v.mantissa : ℝ) * 2 ^ v.exponent ≤ 2 ^ 53 * 2 ^ v.exponent := by gcongr
  have hunit : (0 : ℝ) < 2 ^ (v.exponent - 2) := zpow_pos two_pos _
  rw [hfar] at hlower
  rw [(two_zpow_quarters v.exponent).2] at hlower hsize
  linarith

end Search

/-- **The shortest decimal is in the interval** of numbers that round to the one it is written
for. -/
theorem covers_shortest {v : Magnitude} (hmantissa : v.mantissa < 2 ^ 53)
    (hleast : -1074 ≤ v.exponent) (hmost : v.exponent ≤ 971) (hv : v.mantissa ≠ 0) (tie : Tie) :
    v.Covers ((shortest v tie).coefficient * 10 ^ (shortest v tie).exponent) := by
  obtain ⟨-, -, -, hlower⟩ := startingPower_spec hv hmantissa hleast hmost
  obtain ⟨-, -, -, -, hvalue⟩ := (searchFrom v tie 18 (startingPower v)).trim_spec 18
  rw [shortest, if_neg hv, hvalue]
  exact covers_searchFrom hv tie 18 _ (ten_zpow_start_lt hmantissa hlower)

theorem shortest_of_zero {v : Magnitude} (hv : v.mantissa = 0) (tie : Tie) :
    shortest v tie = ⟨0, 0⟩ :=
  if_pos hv

/-- **The shortest decimal can be read**: its coefficient fits in a word and its exponent is
small. -/
theorem shortest_fits {v : Magnitude} (hmantissa : v.mantissa < 2 ^ 53)
    (hleast : -1074 ≤ v.exponent) (hmost : v.exponent ≤ 971) (tie : Tie) :
    (shortest v tie).Fits v := by
  by_cases hv : v.mantissa = 0
  · rw [shortest_of_zero hv]
    refine ⟨by norm_num, by norm_num, by norm_num, fun _ => rfl, ?_⟩
    rw [hv]
    simp only [CharP.cast_eq_zero, zero_mul]
    positivity
  · have hcovers := covers_shortest hmantissa hleast hmost hv tie
    have hnonzero : (shortest v tie).coefficient ≠ 0 := by
      intro hzero
      have hpos := hcovers.pos hv
      rw [hzero, Nat.cast_zero, zero_mul] at hpos
      exact lt_irrefl _ hpos
    have hfound := searchFrom_found v tie 18 (startingPower v)
    obtain ⟨htrim, hgrow, hgrow', -, -⟩ := (searchFrom v tie 18 (startingPower v)).trim_spec 18
    obtain ⟨hstart, hstart', hupper, -⟩ := startingPower_spec hv hmantissa hleast hmost
    have hcoefficient := hfound.coefficient_lt hupper
    have hfirst := hfound.least_le
    have hlast := hfound.le_greatest
    have hshortest : shortest v tie = (searchFrom v tie 18 (startingPower v)).trim 18 := if_neg hv
    rw [← hshortest] at htrim hgrow hgrow'
    exact ⟨by omega, by omega, by omega, fun hzero => absurd hzero hnonzero, hcovers.le_upper⟩

/-- **The shortest decimal is near**: it is at most half of the last bit away from the number it is
written for. -/
theorem abs_shortest_sub_le {v : Magnitude} (hmantissa : v.mantissa < 2 ^ 53)
    (hleast : -1074 ≤ v.exponent) (hmost : v.exponent ≤ 971) (tie : Tie) :
    |((shortest v tie).coefficient : ℝ) * 10 ^ (shortest v tie).exponent -
      v.mantissa * 2 ^ v.exponent| ≤ 2 ^ (v.exponent - 1) := by
  have hunit : (0 : ℝ) < 2 ^ (v.exponent - 2) := zpow_pos two_pos _
  obtain ⟨hhalf, hwhole⟩ := two_zpow_quarters v.exponent
  rw [hhalf, hwhole]
  by_cases hv : v.mantissa = 0
  · rw [shortest_of_zero hv, hv]
    simp [hunit.le]
  · obtain ⟨hbelow, habove, -⟩ := covers_shortest hmantissa hleast hmost hv tie
    have hreach : (v.reach : ℝ) * 2 ^ (v.exponent - 2) ≤ 2 * 2 ^ (v.exponent - 2) := by
      gcongr
      exact_mod_cast v.reach_mem.2
    exact abs_le.mpr ⟨by linarith, by linarith⟩

end OnlineAggregation.Decimal
