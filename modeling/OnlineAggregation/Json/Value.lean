/-!
# JSON values

A JSON text stands for a tree. Members of an object keep their order and may repeat a key, since a
reader decides later what a repeated key means. Numbers keep apart how they were written: whole
numbers that fit in 64 bits, and all others as binary64.
-/

namespace OnlineAggregation.Json

/-- A number of a JSON text. -/
inductive Number where
  /-- A whole number below `2 ^ 64`. -/
  | natural (n : Nat)
  /-- The whole number `-n`, for `n` from 1 to `2 ^ 63`. -/
  | negative (n : Nat)
  | float (x : Float)
deriving DecidableEq

/-- The nearest binary64 number. -/
def Number.toFloat : Number → Float
  | natural n => Float.ofNat n
  | negative n => -Float.ofNat n
  | float x => x

/-- A JSON tree. -/
inductive Value where
  | null
  | bool (b : Bool)
  | number (n : Number)
  | string (s : String)
  | array (elements : List Value)
  | object (members : List (String × Value))

namespace Value

def ofNat (n : Nat) : Value :=
  .number (.natural n)

def ofFloat (x : Float) : Value :=
  .number (.float x)

/-- A value, or `null` where there is none. -/
def ofOption {α : Type} (f : α → Value) : Option α → Value
  | some a => f a
  | none => .null

/-- The first member of an object with this key. -/
def member? (key : String) : Value → Option Value
  | object members => members.lookup key
  | _ => none

end Value

end OnlineAggregation.Json
