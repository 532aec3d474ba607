/-!
# Numbers that are not finite

The two non-finite numbers that the library itself produces: NaN where there is no answer, and
positive infinity where there is no bound.
-/

namespace OnlineAggregation.Numeric

/-- The number that stands for no answer. -/
def nan : Float := 0.0 / 0.0

/-- The number above all others. -/
def infinity : Float := 1.0 / 0.0

theorem isNaN_nan : nan.isNaN = true := by
  decide

/-- Infinity is no finite number, and no NaN. -/
theorem isInf_infinity : infinity.isInf = true := by
  decide

end OnlineAggregation.Numeric
