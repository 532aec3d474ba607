import OnlineAggregation.Bound.Domain
import OnlineAggregation.Proofs.Binary64.Arithmetic

/-!
# The range of a list of values

A range is the hull of a list if it contains the list and both its ends are taken from it.
Main statement: widening the hull of a list by a further finite value gives the hull of the longer
list, in whatever order the values come and whichever zeros are among them. A hull has a width as
soon as two of its values are different numbers.
-/

namespace OnlineAggregation.ValueRange

open Binary64

/-- `r` is the least range around the values `ys`, of which there is at least one. -/
structure IsHullOf (r : ValueRange) (ys : List Float) : Prop where
  lower_finite : r.lower.isFinite = true
  upper_finite : r.upper.isFinite = true
  ordered : r.lower ≤ r.upper
  contains : ∀ y ∈ ys, r.contains y = true
  lower_attained : ∃ y ∈ ys, (r.lower == y) = true
  upper_attained : ∃ y ∈ ys, (r.upper == y) = true

variable {r : ValueRange} {ys : List Float} {v : Float}

theorem contains_iff : r.contains v = true ↔ r.lower ≤ v ∧ v ≤ r.upper := by
  rw [ValueRange.contains, Bool.and_eq_true, decide_eq_true_iff, decide_eq_true_iff]

/-- The hull of one value is that value twice. -/
theorem isHullOf_point (hv : v.isFinite = true) : (point v).IsHullOf [v] := by
  obtain ⟨t, ht⟩ := isFinite_iff_exists_reads.mp hv
  have hle : v ≤ v := ht.le_self
  have heq : (v == v) = true := (ht.beq_iff ht).mpr rfl
  refine ⟨hv, hv, hle, ?_, ⟨v, List.mem_singleton_self v, heq⟩, ⟨v, List.mem_singleton_self v, heq⟩⟩
  intro y hy
  obtain rfl := List.mem_singleton.mp hy
  exact contains_iff.mpr ⟨hle, hle⟩

private theorem finite_of_choice {e old : Float} (he : e = old ∨ e = v)
    (hold : old.isFinite = true) (hv : v.isFinite = true) : e.isFinite = true := by
  rcases he with rfl | rfl
  · exact hold
  · exact hv

private theorem attained_of_choice {e old : Float} (he : e = old ∨ e = v)
    (hold : ∃ y ∈ ys, (old == y) = true) (hv : v.isFinite = true) :
    ∃ y ∈ ys ++ [v], (e == y) = true := by
  rcases he with rfl | rfl
  · obtain ⟨y, hmem, heq⟩ := hold
    exact ⟨y, List.mem_append_left [v] hmem, heq⟩
  · obtain ⟨t, ht⟩ := isFinite_iff_exists_reads.mp hv
    exact ⟨e, List.mem_append_right ys (List.mem_singleton_self e), (ht.beq_iff ht).mpr rfl⟩

/-- A further value widens the hull to that of the longer list. -/
theorem IsHullOf.widen (h : r.IsHullOf ys) (hv : v.isFinite = true) :
    (r.widen v).IsHullOf (ys ++ [v]) := by
  obtain ⟨l, hl⟩ := isFinite_iff_exists_reads.mp h.lower_finite
  obtain ⟨u, hu⟩ := isFinite_iff_exists_reads.mp h.upper_finite
  obtain ⟨t, ht⟩ := isFinite_iff_exists_reads.mp hv
  have hlu : (l : EReal) ≤ u := (hl.le_iff hu).mp h.ordered
  -- Either end is the old one or the new value; as points they are the minimum and the maximum.
  have hlower : Reads (r.widen v).lower (min l t) := hl.ite_lt_min ht
  have hupper : Reads (r.widen v).upper (max u t) := hu.ite_lt_max ht
  have hlower' : (r.widen v).lower = r.lower ∨ (r.widen v).lower = v := ite_eq_or_eq _ _ _
  have hupper' : (r.widen v).upper = r.upper ∨ (r.widen v).upper = v := ite_eq_or_eq _ _ _
  refine ⟨finite_of_choice hlower' h.lower_finite hv, finite_of_choice hupper' h.upper_finite hv,
    ?_, ?_, attained_of_choice hlower' h.lower_attained hv,
    attained_of_choice hupper' h.upper_attained hv⟩
  · rw [hlower.le_iff hupper]
    exact (min_le_left _ _).trans (hlu.trans (le_max_left _ _))
  · intro y hy
    rw [contains_iff]
    rcases List.mem_append.mp hy with hmem | hmem
    · -- A value that was inside stays inside.
      obtain ⟨hlow, hhigh⟩ := contains_iff.mp (h.contains y hmem)
      obtain ⟨s, hs⟩ := exists_reads (isNaN_eq_false_of_le hhigh).1
      rw [hlower.le_iff hs, hs.le_iff hupper]
      exact ⟨(min_le_left _ _).trans ((hl.le_iff hs).mp hlow),
        ((hs.le_iff hu).mp hhigh).trans (le_max_left _ _)⟩
    · obtain rfl := List.mem_singleton.mp hmem
      rw [hlower.le_iff ht, ht.le_iff hupper]
      exact ⟨min_le_right _ _, le_max_right _ _⟩

/-- A hull on the real line: the values are between the ends, and each end is one of them. -/
structure Spans (r : ValueRange) (ys : List Float) (l u : ℝ) : Prop where
  lower : Reads r.lower l
  upper : Reads r.upper u
  between : ∀ y ∈ ys, ∃ t : ℝ, l ≤ t ∧ t ≤ u ∧ Reads y t
  lower_mem : ∃ y ∈ ys, Reads y l
  upper_mem : ∃ y ∈ ys, Reads y u

theorem IsHullOf.exists_spans (h : r.IsHullOf ys) : ∃ l u : ℝ, r.Spans ys l u := by
  obtain ⟨l, hl⟩ := isFinite_iff_exists_reads.mp h.lower_finite
  obtain ⟨u, hu⟩ := isFinite_iff_exists_reads.mp h.upper_finite
  obtain ⟨x, hx, hlower⟩ := h.lower_attained
  obtain ⟨y, hy, hupper⟩ := h.upper_attained
  refine ⟨l, u, hl, hu, fun v hv => ?_, ⟨x, hx, hl.of_beq hlower⟩, ⟨y, hy, hu.of_beq hupper⟩⟩
  obtain ⟨hlow, hhigh⟩ := contains_iff.mp (h.contains v hv)
  exact exists_reads_of_mem hl hu hlow hhigh

theorem Spans.mem_of_reads {l u t : ℝ} (h : r.Spans ys l u) (hv : v ∈ ys) (ht : Reads v t) :
    l ≤ t ∧ t ≤ u := by
  obtain ⟨t', hlow, hhigh, ht'⟩ := h.between v hv
  obtain rfl : t = t' := EReal.coe_injective (ht.unique ht')
  exact ⟨hlow, hhigh⟩

/-- A hull has a width if and only if two values of the list differ as numbers. -/
theorem IsHullOf.width_pos_iff (h : r.IsHullOf ys) :
    0.0 < r.width ↔ ∃ x ∈ ys, ∃ y ∈ ys, (x == y) = false := by
  obtain ⟨l, u, hspans⟩ := h.exists_spans
  rw [width, hspans.upper.sub_pos_iff hspans.lower]
  constructor
  · intro hlt
    obtain ⟨x, hx, hxl⟩ := hspans.lower_mem
    obtain ⟨y, hy, hyu⟩ := hspans.upper_mem
    refine ⟨x, hx, y, hy, Bool.eq_false_iff.mpr fun hequal => ?_⟩
    exact hlt.ne (EReal.coe_injective ((hxl.beq_iff hyu).mp hequal))
  · rintro ⟨x, hx, y, hy, hdiffer⟩
    obtain ⟨s, hls, hsu, hs⟩ := hspans.between x hx
    obtain ⟨t, hlt, htu, ht⟩ := hspans.between y hy
    -- Between equal ends there is one number only.
    by_contra hul
    have hst : s = t := by linarith
    have hequal : (x == y) = true := (hs.beq_iff ht).mpr (congrArg _ hst)
    exact absurd hequal (Bool.eq_false_iff.mp hdiffer)

end OnlineAggregation.ValueRange
