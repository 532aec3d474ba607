import OnlineAggregation.Decimal.Binary
import OnlineAggregation.Decimal.Rounding

/-!
# The shortest decimal that reads back

Every real number in a certain interval around a finite binary number rounds to it. The interval
reaches half way to both neighbours, and its ends belong to it when the mantissa is even. The
shortest decimal is the one with the fewest digits in that interval, and among those the one
nearest to the number.

The search goes through the grids of multiples of `10 ^ k` for falling `k`. If a grid has any
point in the interval, then one of the two points around the number itself is in it, so two tests
decide each grid.
-/

namespace OnlineAggregation.Decimal

/-- The decimal number `coefficient · 10 ^ exponent`. -/
structure Scaled where
  /-- The digits, read as a whole number. -/
  coefficient : Nat
  /-- The power of ten of the last digit. -/
  exponent : Int
deriving DecidableEq, Repr

/-! ## §1 One grid -/

/-- The interval of reals that round to a number, with a grid laid over it: all five numbers are
multiples of one common unit. -/
structure Grid where
  lower : Nat
  /-- The number itself. -/
  value : Nat
  upper : Nat
  /-- Whether the ends belong to the interval. -/
  closed : Bool
  /-- Distance of two neighbouring grid points. -/
  spacing : Nat

namespace Grid

/-- The interval of `v` under the multiples of `10 ^ k`. -/
def around (v : Magnitude) (k : Int) : Grid :=
  -- The common unit is a quarter of the last bit of `v`, or a whole fraction of that.
  let unit := v.exponent - 2
  let scale := Nat.pow 2 unit.toNat * Nat.pow 10 (-k).toNat
  { lower := (4 * v.mantissa - (if v.isStepDown then 1 else 2)) * scale
    value := 4 * v.mantissa * scale
    upper := (4 * v.mantissa + 2) * scale
    closed := v.mantissa % 2 == 0
    spacing := Nat.pow 10 k.toNat * Nat.pow 2 (-unit).toNat }

/-- Whether the point `x` rounds to the number. -/
def admits (g : Grid) (x : Nat) : Bool :=
  if g.closed then g.lower ≤ x && x ≤ g.upper else g.lower < x && x < g.upper

/-- The index of the grid point to write, if one of the two around the number reads back. -/
def pick? (g : Grid) (tie : Tie) : Option Nat :=
  let low := g.value / g.spacing
  match g.admits (low * g.spacing), g.admits ((low + 1) * g.spacing) with
  | true, true =>
    some (if tie.roundsUp low (2 * (g.value % g.spacing)) g.spacing then low + 1 else low)
  | true, false => some low
  | false, true => some (low + 1)
  | false, false => none

end Grid

/-! ## §2 The search -/

/-- The first of the next `fuel` grids, from `10 ^ k` down, that has a point to write. -/
def searchFrom (v : Magnitude) (tie : Tie) : Nat → Int → Scaled
  -- The last grid is answered by the point below.
  | 0, k => ⟨(Grid.around v k).value / (Grid.around v k).spacing, k⟩
  | fuel + 1, k =>
    match (Grid.around v k).pick? tie with
    | some point => ⟨point, k⟩
    | none => searchFrom v tie fuel (k - 1)

/-- Drops the zeros at the end of a coefficient, at most `fuel` of them. -/
def Scaled.trim : Nat → Scaled → Scaled
  | 0, s => s
  | fuel + 1, s =>
    if s.coefficient ≠ 0 ∧ s.coefficient % 10 = 0 then
      trim fuel ⟨s.coefficient / 10, s.exponent + 1⟩
    else s

/-- A power of ten not below the leading digit of `v`. -/
def startingPower (v : Magnitude) : Int :=
  -- `log₁₀ 2` rounded up, sharp enough for every exponent of a binary64 number.
  (Int.ofNat v.mantissa.log2 + v.exponent) * 30103 / 100000 + 1

/-- The decimal with the fewest digits that reads back as `v`. -/
def shortest (v : Magnitude) (tie : Tie) : Scaled :=
  -- Seventeen digits always read back, and the search starts at most one place too high.
  if v.mantissa = 0 then ⟨0, 0⟩ else (searchFrom v tie 18 (startingPower v)).trim 18

/-- What a grid offers to write does round to the number. -/
theorem Grid.admits_of_pick? {g : Grid} {tie : Tie} {point : Nat} (h : g.pick? tie = some point) :
    g.admits (point * g.spacing) = true := by
  unfold pick? at h
  simp only at h
  split at h <;> rename_i below above
  · cases h
    split <;> assumption
  · cases h
    exact below
  · cases h
    exact above
  · cases h

end OnlineAggregation.Decimal
