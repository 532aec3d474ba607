import OnlineAggregation.Config.Settings

/-!
# The schema of a choice

A JSON schema for editors and validators. It follows the table of settings, so that it says of every
parameter what the reader does. Keys are in alphabetical order.
-/

namespace OnlineAggregation.Config

open Json (Scalar Value)

/-- The type names of a kind of value. -/
def typeValue : Scalar → Value
  | .number => .string "number"
  | .optionalNumber => .array [.string "number", .string "null"]
  | .natural => .string "integer"

def formatName : Scalar → String
  | .number | .optionalNumber => "double"
  | .natural => "uint64"

/-- A member for an end of a range, if the range has one. -/
def rangeMember (key : String) : Option Json.Number → List (String × Value)
  | some n => [(key, .number n)]
  | none => []

/-- The schema of one parameter. -/
def Setting.schema (s : Setting) : Value :=
  .object <|
    [ ("default", s.scalar.toValue s.default),
      ("description", .string s.explanation),
      ("format", .string (formatName s.scalar)) ] ++
    rangeMember "maximum" s.maximum ++ rangeMember "minimum" s.minimum ++
    [ ("title", .string s.title),
      ("type", typeValue s.scalar) ]

/-- The schema of the parameter record of a kind. -/
def Kind.paramsSchema (k : Kind) : Value :=
  .object
    [ ("properties", .object (k.settings.map fun s => (s.name, s.schema))),
      ("type", .string "object") ]

/-- The schema of a choice of a kind. -/
def Kind.choiceSchema (k : Kind) : Value :=
  .object
    [ ("properties", .object
        [ ("params", .object [("$ref", .string ("#/$defs/" ++ k.recordName))]),
          ("type", .object [("const", .string k.name), ("type", .string "string")]) ]),
      ("required", .array [.string "type", .string "params"]),
      ("type", .string "object") ]

def schema : Value :=
  .object
    [ ("$defs", .object
        ([Kind.conservative, .deterministic, .largeSample].map fun k =>
          (k.recordName, k.paramsSchema))),
      ("$schema", .string "https://json-schema.org/draft/2020-12/schema"),
      -- The definitions above are in alphabetical order, the variants in the order of the kinds.
      ("oneOf", .array (Kind.all.map Kind.choiceSchema)),
      ("title", .string "BoundChoice") ]

end OnlineAggregation.Config
