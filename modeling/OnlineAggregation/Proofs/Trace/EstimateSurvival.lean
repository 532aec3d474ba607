import OnlineAggregation.Proofs.Json.Survival
import OnlineAggregation.Proofs.Trace.ReadBack

/-!
# Estimates that survive

An estimate is written as a JSON object and read again. Main statement: every finite estimate is
read, with the same count and with numbers that hardly moved; it is the same estimate, to the last
bit, exactly if each of its numbers survives. Short numbers do, but not all of the numbers that a
half-width may be.
-/

namespace OnlineAggregation

open Binary64 (Reads)

namespace Json

/-- `y` is what is read for the text of `x`: it is near, and how to tell whether it is `x`. -/
structure ReadFor (x y : Float) : Prop where
  near : ∃ r t : ℝ, Reads x r ∧ Reads y t ∧ |t - r| ≤ 2 ^ (-49 : ℤ) * |r| + 2 ^ (-1072 : ℤ)
  eq_iff : y = x ↔ Survives x
  eq_of_isShort : isShort x = true → y = x

theorem readFor_reread {x : Float} (hx : x.isFinite = true) : ReadFor x (reread x) where
  near := by
    obtain ⟨r, hr⟩ := Binary64.isFinite_iff_exists_reads.mp hx
    obtain ⟨t, ht, hmoved⟩ := exists_reads_reread hr
    exact ⟨r, t, hr, ht, hmoved⟩
  eq_iff := reread_eq_iff hx
  eq_of_isShort h := (reread_eq_iff hx).mpr (survives_of_isShort hx h)

end Json

namespace Estimate

open Json (ReadFor Survives Value)

variable {e : Estimate}

/-- The compact text of a finite estimate is read as what is left of its numbers. -/
theorem parse_compact (hcount : e.count < 2 ^ 64) (hfinite : e.isFinite = true) :
    parse e.toValue.compact = .ok e.reread := by
  have htext : e.toValue.compact.toList = Value.compactLayout.text 0 e.toValue := rfl
  rw [parse_text Value.compactLayout hcount htext, if_pos hfinite]

theorem reread_eq_iff :
    e.reread = e ↔ Json.reread e.mean = e.mean ∧ Json.reread e.epsilon = e.epsilon ∧
      Json.reread e.confidence = e.confidence := by
  obtain ⟨count, mean, epsilon, confidence⟩ := e
  simp [reread]

/-- **An estimate is read back as itself exactly if its numbers survive**. Whatever finite numbers
it has, the zeros of both signs, the least and the greatest ones among them, its text is read as an
estimate with the same count, and each number is read as one that is near it: as itself if it is
short, and otherwise if and only if the steps of the reader come to it. -/
theorem parse_compact_eq_iff (hcount : e.count < 2 ^ 64) (hfinite : e.isFinite = true) :
    ∃ e', parse e.toValue.compact = .ok e' ∧ e'.count = e.count ∧
      ReadFor e.mean e'.mean ∧ ReadFor e.epsilon e'.epsilon ∧
      ReadFor e.confidence e'.confidence ∧
      (e' = e ↔ Survives e.mean ∧ Survives e.epsilon ∧ Survives e.confidence) := by
  have hfields : (e.mean.isFinite = true ∧ e.epsilon.isFinite = true) ∧
      e.confidence.isFinite = true := by
    rwa [isFinite, Bool.and_eq_true, Bool.and_eq_true] at hfinite
  obtain ⟨⟨hmean, hepsilon⟩, hconfidence⟩ := hfields
  refine ⟨e.reread, parse_compact hcount hfinite, rfl, Json.readFor_reread hmean,
    Json.readFor_reread hepsilon, Json.readFor_reread hconfidence, ?_⟩
  rw [reread_eq_iff, Json.reread_eq_iff hmean, Json.reread_eq_iff hepsilon,
    Json.reread_eq_iff hconfidence]

/-- Short numbers, a negative zero among them. -/
theorem parse_compact_eq_iff_short :
    parse (⟨2 ^ 64 - 1, -0.0, 0.0625, 0.95⟩ : Estimate).toValue.compact =
      .ok ⟨2 ^ 64 - 1, -0.0, 0.0625, 0.95⟩ := by
  obtain ⟨e', hparse, -, hmean, hepsilon, hconfidence, hsame⟩ :=
    @parse_compact_eq_iff ⟨2 ^ 64 - 1, -0.0, 0.0625, 0.95⟩ (by norm_num) (by decide)
  have hzero := hmean.eq_iff.mp (hmean.eq_of_isShort (by decide +kernel))
  have hwidth := hepsilon.eq_iff.mp (hepsilon.eq_of_isShort (by decide +kernel))
  have hlevel := hconfidence.eq_iff.mp (hconfidence.eq_of_isShort (by decide +kernel))
  rw [hparse, hsame.mpr ⟨hzero, hwidth, hlevel⟩]

/-- The half-width of one value between 0 and 1 at confidence 0.95 is written as
`1.3581015157406193`, and read as the number before it. -/
theorem not_parsed_as_written :
    let e : Estimate := ⟨1, 0.5, Float.ofBits 0x3ff5bac8a7ac1057, 0.95⟩
    let e' : Estimate := ⟨1, 0.5, Float.ofBits 0x3ff5bac8a7ac1056, 0.95⟩
    e.count < 2 ^ 64 ∧ e.isFinite = true ∧
      e.toValue.compact =
        "\x7b\"count\":1,\"mean\":0.5,\"epsilon\":1.3581015157406193,\"confidence\":0.95\x7d" ∧
      parse e.toValue.compact = .ok e' ∧ e' ≠ e := by
  intro e e'
  have hcount : e.count < 2 ^ 64 := by decide
  have hfinite : e.isFinite = true := by decide
  refine ⟨hcount, hfinite, by decide +kernel, ?_, by decide⟩
  rw [parse_compact hcount hfinite]
  decide +kernel

end Estimate

end OnlineAggregation
