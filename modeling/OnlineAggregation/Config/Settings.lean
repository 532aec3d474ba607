import OnlineAggregation.Config.Kind
import OnlineAggregation.Json.Record

/-!
# Settings

The parameters of each kind of bound, as data: name, kind of value, default, explanation and range.
Reading, writing, defaults and the schema all follow this one table.
-/

namespace OnlineAggregation.Config

open Json (Scalar Field Row)

/-- One parameter of a kind of bound. -/
structure Setting where
  name : String
  /-- The kind of its value. -/
  scalar : Scalar
  /-- Its value if none is given. -/
  default : scalar.Carrier
  title : String
  explanation : String
  /-- The least value a user may choose, if there is one. -/
  minimum : Option Json.Number
  /-- The greatest value a user may choose, if there is one. -/
  maximum : Option Json.Number

/-- The parameter as a field that may be left out. -/
def Setting.field (s : Setting) : Field :=
  { name := s.name, scalar := s.scalar, default? := some s.default }

/-- The defaults of all parameters. -/
def defaults : (settings : List Setting) → Row (settings.map Setting.field)
  | [] => ()
  | s :: settings => (s.default, defaults settings)

/-! ## The table -/

def confidenceSetting : Setting :=
  { name := "confidence", scalar := .number, default := 0.95, title := "Confidence"
    explanation := "Probability that the interval covers the true mean (0–1, exclusive)."
    minimum := some (.float 0.0), maximum := some (.float 1.0) }

/-- An end of the domain that may stay open. -/
def openEnd (name title explanation : String) : Setting :=
  { name, scalar := .optionalNumber, default := none, title, explanation
    minimum := none, maximum := none }

/-- An end of the domain. -/
def fixedEnd (name : String) (default : Float) (title explanation : String) : Setting :=
  { name, scalar := .number, default, title, explanation, minimum := none, maximum := none }

def lowerSetting : Setting :=
  fixedEnd "lower" 0.0 "Lower bound" "Smallest possible value."

def upperSetting : Setting :=
  fixedEnd "upper" 1.0 "Upper bound" "Largest possible value."

def plannedSetting : Setting :=
  { name := "planned_samples", scalar := .natural, default := 1000, title := "Planned samples"
    explanation := "Number of samples committed to up front."
    minimum := some (.natural 1), maximum := none }

/-- The parameters of a kind of bound, in order. -/
def Kind.settings : Kind → List Setting
  | largeSample =>
    [ confidenceSetting,
      openEnd "lower" "Lower bound" "Known smallest value. Omit to use the observed range.",
      openEnd "upper" "Upper bound" "Known largest value. Omit to use the observed range." ]
  | conservative => [confidenceSetting, lowerSetting, upperSetting]
  | deterministic => [confidenceSetting, lowerSetting, upperSetting, plannedSetting]

/-- The fields of the parameter record of a kind. -/
def Kind.fields (k : Kind) : List Field :=
  k.settings.map Setting.field

end OnlineAggregation.Config
