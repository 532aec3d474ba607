import OnlineAggregation.Bound.Strategy
import OnlineAggregation.Proofs.Bound.Hull
import OnlineAggregation.Proofs.Decimal.Binary

/-!
# Ranges with equal ends

The ends of a range are what comparisons have left of a list of values, and of two zeros of
different signs either may be left. Main statements: a list has one hull only, as far as numbers
go, and its order does not matter; and no strategy can tell apart two ranges whose ends are equal
as numbers, not even by a bit of the half-width.
-/

namespace OnlineAggregation

open Binary64
open Numeric (NaturalLog)

namespace ValueRange

/-- The ends are equal as numbers, so they may be zeros of different signs. -/
structure SameEnds (r s : ValueRange) : Prop where
  lower : (r.lower == s.lower) = true
  upper : (r.upper == s.upper) = true

variable {r s : ValueRange} {ys zs : List Float}

/-! ## §1 Hulls -/

/-- The order of the list does not matter to its hull. -/
theorem IsHullOf.perm (h : r.IsHullOf ys) (hperm : ys.Perm zs) : r.IsHullOf zs where
  lower_finite := h.lower_finite
  upper_finite := h.upper_finite
  ordered := h.ordered
  contains z hz := h.contains z (hperm.mem_iff.mpr hz)
  lower_attained := by
    obtain ⟨y, hy, hequal⟩ := h.lower_attained
    exact ⟨y, hperm.mem_iff.mp hy, hequal⟩
  upper_attained := by
    obtain ⟨y, hy, hequal⟩ := h.upper_attained
    exact ⟨y, hperm.mem_iff.mp hy, hequal⟩

/-- A list has one hull only. -/
theorem IsHullOf.sameEnds (h : r.IsHullOf ys) (h' : s.IsHullOf ys) : r.SameEnds s := by
  obtain ⟨l, u, hr⟩ := h.exists_spans
  obtain ⟨l', u', hs⟩ := h'.exists_spans
  -- Each end is a value of the list, and so within the other hull.
  obtain ⟨x, hx, hxl⟩ := hr.lower_mem
  obtain ⟨x', hx', hxl'⟩ := hs.lower_mem
  obtain ⟨y, hy, hyu⟩ := hr.upper_mem
  obtain ⟨y', hy', hyu'⟩ := hs.upper_mem
  have hlower : l = l' :=
    le_antisymm (hr.mem_of_reads hx' hxl').1 (hs.mem_of_reads hx hxl).1
  have hupper : u = u' :=
    le_antisymm (hs.mem_of_reads hy hyu).2 (hr.mem_of_reads hy' hyu').2
  exact ⟨(hr.lower.beq_iff hs.lower).mpr (congrArg _ hlower),
    (hr.upper.beq_iff hs.upper).mpr (congrArg _ hupper)⟩

/-! ## §2 Widths -/

/-- Equal ends are the same points. -/
theorem SameEnds.exists_reads (h : r.SameEnds s) (hlower : r.lower.isFinite = true)
    (hupper : r.upper.isFinite = true) :
    ∃ l u : ℝ, Reads r.lower l ∧ Reads s.lower l ∧ Reads r.upper u ∧ Reads s.upper u := by
  obtain ⟨l, hl⟩ := isFinite_iff_exists_reads.mp hlower
  obtain ⟨u, hu⟩ := isFinite_iff_exists_reads.mp hupper
  exact ⟨l, u, hl, hl.of_beq h.lower, hu, hu.of_beq h.upper⟩

/-- A width other than zero is the same to the last bit. -/
theorem SameEnds.width_eq (h : r.SameEnds s) (hlower : r.lower.isFinite = true)
    (hupper : r.upper.isFinite = true) (hpos : 0.0 < r.width) : r.width = s.width := by
  obtain ⟨l, u, hrl, hsl, hru, hsu⟩ := h.exists_reads hlower hupper
  -- Both differences are rounded from the same one, and only zero is two numbers.
  have hreads : Reads r.width (nearest (u - l)) := hru.sub hrl
  have hne : nearest (u - l) ≠ 0 := ((reads_zero.lt_iff hreads).mp hpos).ne'
  exact Decimal.Binary.eq_of_reads hreads (hsu.sub hsl) hne

/-- Ranges with equal ends have a width together. -/
theorem SameEnds.width_pos_iff (h : r.SameEnds s) (hlower : r.lower.isFinite = true)
    (hupper : r.upper.isFinite = true) : 0.0 < r.width ↔ 0.0 < s.width := by
  obtain ⟨l, u, hrl, hsl, hru, hsu⟩ := h.exists_reads hlower hupper
  exact (hru.sub_pos_iff hrl).trans (hsu.sub_pos_iff hsl).symm

end ValueRange

/-! ## §3 Half-widths -/

/-- **Equal ends have equal half-widths**, under every strategy and to the last bit. The width of
equal values may be a zero of either sign, but there is no half-width from it. -/
theorem Strategy.halfWidth_sameEnds [NaturalLog] (strategy : Strategy) (confidence : Float)
    (seen : Nat) {r s : ValueRange} (h : r.SameEnds s) (hlower : r.lower.isFinite = true)
    (hupper : r.upper.isFinite = true) :
    strategy.halfWidth confidence seen (some r) = strategy.halfWidth confidence seen (some s) := by
  cases strategy with
  | conservative domain => rfl
  | deterministic domain planned => rfl
  | largeSample domain =>
    cases domain with
    | some domain => rfl
    | none =>
      have hiff := h.width_pos_iff hlower hupper
      by_cases hpos : 0.0 < r.width
      · simp only [halfWidth, if_pos (hiff.mp hpos), seenHalfWidth,
          h.width_eq hlower hupper hpos]
      · simp only [halfWidth, if_neg hpos, if_neg (mt hiff.mpr hpos)]

end OnlineAggregation
