/-!
# Kinds of bounds

The three kinds of bounds that a configuration can ask for, with the names by which a user meets
them.
-/

namespace OnlineAggregation.Config

/-- A kind of bound. -/
inductive Kind where
  | largeSample
  | conservative
  | deterministic
deriving DecidableEq, Repr

namespace Kind

/-- All kinds, in the order in which they are offered. -/
def all : List Kind :=
  [largeSample, conservative, deterministic]

def name : Kind → String
  | largeSample => "large-sample"
  | conservative => "conservative"
  | deterministic => "deterministic"

/-- The kind of a name; only the exact spelling counts. -/
def ofName? (s : String) : Option Kind :=
  all.find? fun k => k.name == s

@[simp] theorem ofName?_name (k : Kind) : ofName? k.name = some k := by
  cases k <;> decide

/-- What is said of a name that no kind has. -/
def unknownName : String :=
  "Matching variant not found"

def title : Kind → String
  | largeSample => "Large sample"
  | conservative => "Conservative"
  | deterministic => "Deterministic"

def explanation : Kind → String
  | largeSample => "CLT-based bound; needs many samples drawn effectively with replacement."
  | conservative => "Hoeffding bound; valid for any sample size over a known domain."
  | deterministic => "Fixed bound for a sample count committed to in advance."

/-- The name of the parameter record of a kind. -/
def recordName : Kind → String
  | largeSample => "LargeSampleParams"
  | conservative => "ConservativeParams"
  | deterministic => "DeterministicParams"

end Kind

end OnlineAggregation.Config
