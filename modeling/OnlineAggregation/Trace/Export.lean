import OnlineAggregation.Mean.EstimateRecord
import OnlineAggregation.Trace.Convergence

/-!
# Exporting a trace

A trace is written as a table with one line for each estimate, its fields separated by commas or
tabs, or as an indented JSON array. Tables have mean and half-width to twelve places.
-/

namespace OnlineAggregation.ConvergenceTrace

open Decimal (Layout fixed)

/-- A format of exported traces. -/
inductive Format where
  | csv
  | tsv
  | json
deriving DecidableEq, Repr

/-- One line of a table. -/
def tableLine (separator : String) (columns : List String) : String :=
  separator.intercalate columns ++ "\n"

def columnNames : List String :=
  ["count", "mean", "epsilon", "confidence"]

def columns (e : Estimate) : List String :=
  [toString e.count, fixed 12 e.mean, fixed 12 e.epsilon, Layout.message.write e.confidence]

/-- The trace as a table with a heading. -/
def table (separator : String) (t : ConvergenceTrace) : String :=
  String.join
    (tableLine separator columnNames ::
      t.entries.toList.map fun e => tableLine separator (columns e))

/-- The trace as a JSON array. -/
def json (t : ConvergenceTrace) : String :=
  (Json.Value.array (t.entries.toList.map Estimate.toValue)).pretty ++ "\n"

/-- The text of a trace in a format. -/
def exportText (t : ConvergenceTrace) : Format → String
  | .csv => t.table ","
  | .tsv => t.table "\t"
  | .json => t.json

end OnlineAggregation.ConvergenceTrace
