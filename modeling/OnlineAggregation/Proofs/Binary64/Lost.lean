import OnlineAggregation.Proofs.Binary64.Arithmetic

/-!
# Numbers that are lost

Once a result has overflowed, later operations can turn the infinity into NaN, but hardly back into
a number. Main statements: being NaN or the infinity of one sign is kept by sums, differences,
products and quotients, with the sign that the operation gives; and the root of what is lost below
is NaN.
-/

namespace OnlineAggregation.Binary64

open Float.Model Float.Model.UnpackedFloat

/-- The number is NaN or the infinity with the sign `s`. -/
def IsLost (s : Sign) (x : Float) : Prop :=
  x.toModel.unpack = .notANumber ∨ x.toModel.unpack = .infinity s

variable {s s' : Sign} {x y : Float}

/-! ## §1 Readings -/

/-- What is not finite is lost on one side or the other. -/
theorem exists_isLost (h : x.isFinite = false) : ∃ s, IsLost s x := by
  change x.toModel.unpack.isFinite = false at h
  cases hu : x.toModel.unpack with
  | infinity s => exact ⟨s, Or.inr hu⟩
  | notANumber => exact ⟨.positive, Or.inl hu⟩
  | zero s => simp [hu, UnpackedFloat.isFinite] at h
  | finite s m e hm => simp [hu, UnpackedFloat.isFinite] at h

theorem IsLost.isFinite_eq (h : IsLost s x) : x.isFinite = false := by
  change x.toModel.unpack.isFinite = false
  rcases h with h | h <;> rw [h] <;> rfl

theorem isNaN_iff_unpack : x.isNaN = true ↔ x.toModel.unpack = .notANumber := by
  change x.toModel.unpack.isNaN = true ↔ _
  cases x.toModel.unpack <;> simp [UnpackedFloat.isNaN]

/-- NaN is lost on both sides. -/
theorem isNaN_iff_isLost : x.isNaN = true ↔ ∀ s, IsLost s x := by
  rw [isNaN_iff_unpack]
  constructor
  · exact fun hu s => Or.inl hu
  · intro hlost
    refine (hlost .positive).resolve_right fun hu => ?_
    rcases hlost .negative with hu' | hu' <;> rw [hu] at hu' <;> cases hu'

private theorem isLost_pack {u : UnpackedFloat} (h : u = .notANumber ∨ u = .infinity s) :
    IsLost s (.ofModel (.pack u)) := by
  rcases h with rfl | rfl
  · exact Or.inl rfl
  · cases s <;> exact Or.inr rfl

/-! ## §2 Operations -/

theorem IsLost.add_right (hy : IsLost s y) (x : Float) : IsLost s (x + y) := by
  apply isLost_pack
  rcases hy with hu | hu
  · rw [hu]
    cases x.toModel.unpack <;> exact Or.inl rfl
  · rw [hu]
    cases x.toModel.unpack with
    | infinity t => cases s <;> cases t <;> first | exact Or.inl rfl | exact Or.inr rfl
    | notANumber => exact Or.inl rfl
    | _ => exact Or.inr rfl

theorem IsLost.sub_left (hx : IsLost s x) (y : Float) : IsLost s (x - y) := by
  apply isLost_pack
  rcases hx with hu | hu
  · rw [hu]
    exact Or.inl rfl
  · rw [hu]
    cases y.toModel.unpack with
    | infinity t => cases s <;> cases t <;> first | exact Or.inl rfl | exact Or.inr rfl
    | notANumber => exact Or.inl rfl
    | _ => exact Or.inr rfl

/-- What is taken away is lost on the other side. -/
theorem IsLost.sub_right (hy : IsLost s y) (x : Float) : IsLost (-s) (x - y) := by
  apply isLost_pack
  rcases hy with hu | hu
  · rw [hu]
    cases x.toModel.unpack <;> exact Or.inl rfl
  · rw [hu]
    cases x.toModel.unpack with
    | infinity t => cases s <;> cases t <;> first | exact Or.inl rfl | exact Or.inr rfl
    | notANumber => exact Or.inl rfl
    | _ => exact Or.inr rfl

theorem IsLost.mul (hx : IsLost s x) (hy : IsLost s' y) : IsLost (s * s') (x * y) := by
  apply isLost_pack
  rcases hx with hu | hu
  · rw [hu]
    exact Or.inl rfl
  · rcases hy with hw | hw
    · rw [hu, hw]
      exact Or.inl rfl
    · rw [hu, hw]
      exact Or.inr rfl

theorem IsLost.pos_mul {t : ℝ} (hx : Reads x t) (ht : 0 < t) (hy : IsLost s y) :
    IsLost s (x * y) := by
  obtain ⟨m, e, hm, hw⟩ := unpack_of_reads_pos hx ht
  apply isLost_pack
  rcases hy with hu | hu
  · rw [hw, hu]
    exact Or.inl rfl
  · rw [hw, hu]
    cases s <;> exact Or.inr rfl

theorem IsLost.div_pos {t : ℝ} (hx : IsLost s x) (hy : Reads y t) (ht : 0 < t) :
    IsLost s (x / y) := by
  obtain ⟨m, e, hm, hw⟩ := unpack_of_reads_pos hy ht
  apply isLost_pack
  rcases hx with hu | hu
  · rw [hu]
    exact Or.inl rfl
  · rw [hw, hu]
    cases s <;> exact Or.inr rfl

theorem isNaN_div_right (hy : y.isNaN = true) (x : Float) : (x / y).isNaN = true := by
  rw [isNaN_iff_isLost]
  intro s
  apply isLost_pack
  rw [isNaN_iff_unpack.mp hy]
  cases x.toModel.unpack <;> exact Or.inl rfl

/-- Nothing that is lost below has a root. -/
theorem IsLost.isNaN_sqrt (hx : IsLost .negative x) : x.sqrt.isNaN = true := by
  rw [isNaN_iff_isLost]
  intro s
  apply isLost_pack
  rcases hx with hu | hu <;> rw [hu] <;> exact Or.inl rfl

end OnlineAggregation.Binary64
