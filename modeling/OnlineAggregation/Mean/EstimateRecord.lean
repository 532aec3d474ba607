import OnlineAggregation.Json.Record
import OnlineAggregation.Mean.Estimate

/-!
# Estimates in JSON

An estimate is a record of four fields, all of which have to be there.
-/

namespace OnlineAggregation.Estimate

open Json (Field Row Value Fault)

def fields : List Field :=
  [ { name := "count", scalar := .natural, default? := none },
    { name := "mean", scalar := .number, default? := none },
    { name := "epsilon", scalar := .number, default? := none },
    { name := "confidence", scalar := .number, default? := none } ]

def toRow (e : Estimate) : Row fields :=
  (e.count, e.mean, e.epsilon, e.confidence, ())

def ofRow : Row fields → Estimate
  | (count, mean, epsilon, confidence, ()) => { count, mean, epsilon, confidence }

/-- Rows carry all of an estimate. -/
@[simp] theorem ofRow_toRow (e : Estimate) : ofRow e.toRow = e :=
  rfl

def toValue (e : Estimate) : Value :=
  Row.toValue fields e.toRow

/-- The estimate of a text. -/
def parse (text : String) : Except Fault Estimate :=
  (Json.readWhole (Json.readRecord "struct Estimate" fields Json.greatestDepth) text).map ofRow

end OnlineAggregation.Estimate
