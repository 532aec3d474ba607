import OnlineAggregation.Config.ChoiceReader

/-!
# Loading a configuration

A configuration is a file with one choice. It can be missing, hold bytes that are no text, hold a
text that is no choice, or hold a choice from which no aggregator can be built.
-/

namespace OnlineAggregation.Config

open Numeric (NaturalLog)

/-- Why a file could not be read. -/
inductive ReadFailure where
  | notFound
  /-- Its bytes are not UTF-8. -/
  | invalidData
deriving DecidableEq, Repr

/-- Why a configuration could not be loaded. -/
inductive LoadError where
  | read (cause : ReadFailure)
  | parse (cause : Json.Fault)
  /-- The choice has parameters that do not fit together. -/
  | invalid (cause : EstimationError)
deriving DecidableEq

/-- The error on a file of this name, in words. -/
def LoadError.message (file : String) : LoadError → String
  | read _ => "failed to read estimator config '" ++ file ++ "'"
  | parse _ => "failed to parse estimator config '" ++ file ++ "'"
  | invalid _ => "invalid estimator config '" ++ file ++ "'"

/-- The text of a file with these bytes, if there is such a file. -/
def readText : Option ByteArray → Except LoadError String
  | none => .error (.read .notFound)
  | some bytes =>
    match String.fromUTF8? bytes with
    | some text => .ok text
    | none => .error (.read .invalidData)

/-- Loads the choice in a file. -/
def loadChoice (file : Option ByteArray) : Except LoadError Choice := do
  let text ← readText file
  (Choice.parse text).mapError .parse

/-- Loads the choice in a file and builds its aggregator. -/
def loadAggregator [NaturalLog] (file : Option ByteArray) : Except LoadError Aggregator := do
  let choice ← loadChoice file
  choice.build.mapError .invalid

end OnlineAggregation.Config
