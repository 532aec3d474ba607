/-!
# The natural logarithm

Every half-width contains one logarithm, `ln (2 / (1 - c))`. It enters as an instance, so that a
statement about half-widths can name exactly what it uses of the logarithm, and a program that
names none runs with the logarithm of the machine.
-/

namespace OnlineAggregation.Numeric

/-- A natural logarithm on binary64 numbers. -/
class NaturalLog where
  ln : Float → Float

export NaturalLog (ln)

/-- The logarithm of the machine. -/
instance : NaturalLog where
  ln := Float.log

end OnlineAggregation.Numeric
