import OnlineAggregation.Json.Reader

/-!
# Records in JSON

A record type is described by a list of fields, each with a name, the kind of its value and perhaps
a default. From this description come the type of its rows of values, a writer, and two readers: one
goes through a text, the other through a tree that was read before. A record is an object in any
order of its keys, or an array in the order of its fields.

## Main definitions

- `Field`, `Row`: descriptions and the values they describe.
- `Draft`: the values found so far, none of them twice.
- `readRecord`, `Value.toRow`: the two readers.
-/

namespace OnlineAggregation.Json

/-! ## §1 Descriptions -/

/-- The kinds of values that fields have. -/
inductive Scalar where
  | number
  | optionalNumber
  /-- A whole number that fits in 64 bits. -/
  | natural
deriving DecidableEq, Repr

/-- The type of the values of a kind. -/
@[reducible] def Scalar.Carrier : Scalar → Type
  | number => Float
  | optionalNumber => Option Float
  | natural => Nat

/-- One field of a record. -/
structure Field where
  name : String
  scalar : Scalar
  /-- What stands for a missing value; without it the field has to be there. -/
  default? : Option scalar.Carrier

/-- A value for every field. -/
@[reducible] def Row : List Field → Type
  | [] => Unit
  | f :: fs => f.scalar.Carrier × Row fs

/-- Values for some of the fields. -/
@[reducible] def Draft : List Field → Type
  | [] => Unit
  | f :: fs => Option f.scalar.Carrier × Draft fs

/-! ## §2 Writing -/

/-- The tree of a field's value. -/
def Scalar.toValue : (s : Scalar) → s.Carrier → Value
  | number, x => .ofFloat x
  | optionalNumber, x => .ofOption .ofFloat x
  | natural, n => .ofNat n

/-- The members of a row, in the order of its fields. -/
def Row.members : (fs : List Field) → Row fs → List (String × Value)
  | [], _ => []
  | f :: fs, (a, row) => (f.name, f.scalar.toValue a) :: Row.members fs row

def Row.toValue (fs : List Field) (row : Row fs) : Value :=
  .object (Row.members fs row)

/-! ## §3 Values of a kind -/

/-- What messages call a kind. -/
def Scalar.expectation : Scalar → String
  | number | optionalNumber => "f64"
  | natural => "u64"

/-- A number as the value of a field that takes any number. -/
def Scalar.ofNumber : (s : Scalar) → Number → Except Fault s.Carrier
  | number, n => .ok n.toFloat
  | optionalNumber, n => .ok (some n.toFloat)
  | natural, .natural n => .ok n
  | natural, .negative n => unfit (.wrongValue (.number (.negative n)) "u64")
  | natural, .float x => unfit (.wrongType (.number (.float x)) "u64")

/-- A tree as the value of a field. -/
def Scalar.ofValue : (s : Scalar) → Value → Except Fault s.Carrier
  | s, .number n => s.ofNumber n
  | .optionalNumber, .null => .ok none
  | s, v => unfit (.wrongType (Found.ofValue v) s.expectation)

/-- Reads a number as the value of a field. -/
def Scalar.readNumber (s : Scalar) (cs : List Char) : Except Fault (s.Carrier × List Char) :=
  match cs with
  | [] => unfinished .value
  | c :: rest =>
    if c = '-' then do
      let (n, cs) ← Json.readNumber true rest
      pure (← s.ofNumber n, cs)
    else if (digit? c).isSome then do
      let (n, cs) ← Json.readNumber false cs
      pure (← s.ofNumber n, cs)
    else .error (misfit s.expectation cs)

def Scalar.read : (s : Scalar) → List Char → Except Fault (s.Carrier × List Char)
  | .optionalNumber, cs =>
    match skipBlank cs with
    | 'n' :: cs => (readWord ['u', 'l', 'l'] cs).map fun cs => (none, cs)
    | cs => Scalar.optionalNumber.readNumber cs
  | s, cs => s.readNumber (skipBlank cs)

/-! ## §4 Drafts -/

def Draft.empty : (fs : List Field) → Draft fs
  | [] => ()
  | _ :: fs => (none, Draft.empty fs)

/-- Puts the value for a key into a draft, with `take` telling how a value of its kind is got and
what is left after it. There is no answer if no field has that key. -/
def Draft.put? {ρ : Type} (take : (s : Scalar) → Except Fault (s.Carrier × ρ)) (key : String) :
    (fs : List Field) → Draft fs → Option (Except Fault (Draft fs × ρ))
  | [], _ => none
  | f :: fs, (slot, draft) =>
    if f.name = key then
      match slot with
      -- The value is not even read.
      | some _ => some (unfit (.duplicateField key))
      | none => some ((take f.scalar).map fun (a, rest) => ((some a, draft), rest))
    else
      (Draft.put? take key fs draft).map fun put =>
        put.map fun (draft, rest) => ((slot, draft), rest)

/-- Completes a draft with defaults. The first field that is missing without one is a fault. -/
def Draft.complete : (fs : List Field) → Draft fs → Except Fault (Row fs)
  | [], _ => .ok ()
  | f :: fs, (slot, draft) => do
    let a ←
      match slot, f.default? with
      | some a, _ => pure a
      | none, some a => pure a
      | none, none => unfit (.missingField f.name)
    let row ← Draft.complete fs draft
    pure (a, row)

/-! ## §5 Reading from a text -/

/-- The fault of an array that ends before field number `i` of the record `title`. -/
def tooShort (title : String) (size i : Nat) : Unfit :=
  .wrongLength i (title ++ " with " ++ toString size ++ " elements")

/-- Reads the values of the fields from number `i` on as elements of an array. -/
def readRow (title : String) (size : Nat) :
    (fs : List Field) → Nat → List Char → Except Fault (Row fs × List Char)
  | [], _, cs => .ok ((), cs)
  | f :: fs, i, cs => do
    let (more, cs) ← nextElement (i == 0) cs
    let (a, cs) ←
      if more then f.scalar.read cs
      else
        -- What is missing at the end takes its default.
        match f.default? with
        | some a => pure (a, cs)
        | none => unfit (tooShort title size i)
    let (row, cs) ← readRow title size fs (i + 1) cs
    pure ((a, row), cs)

/-- Reads one member of a record. -/
def readField (fs : List Field) (draft : Draft fs) (key : String) (cs : List Char) :
    Except Fault (Draft fs × List Char) :=
  match Draft.put? (fun s => skipColon cs >>= s.read) key fs draft with
  | some put => put
  | none => do
    -- A member that is no field is passed over.
    let cs ← skipColon cs
    let cs ← skipValue cs
    pure (draft, cs)

/-- Reads the record `title` with the given fields. -/
def readRecord (title : String) (fs : List Field) (room : Nat) (cs : List Char) :
    Except Fault (Row fs × List Char) :=
  match skipBlank cs with
  | '[' :: cs =>
    if room = 0 then malformed .tooDeep
    else do
      let (row, cs) ← readRow title fs.length fs 0 cs
      let cs ← closeArray cs
      pure (row, cs)
  | '\x7b' :: cs =>
    if room = 0 then malformed .tooDeep
    else do
      let (draft, cs) ← readMembers (readField fs) (cs.length + 1) true (Draft.empty fs) cs
      let row ← draft.complete fs
      pure (row, cs)
  | cs => .error (misfit title cs)

/-! ## §6 Reading from a tree -/

/-- Takes the values of the fields from the elements of an array, of which there were `length`. -/
def elementsToRow (title : String) (size length : Nat) :
    (fs : List Field) → Nat → List Value → Except Fault (Row fs)
  | [], i, vs =>
    if vs.isEmpty then .ok ()
    else unfit (.wrongLength length (toString i ++ " elements in sequence"))
  | f :: fs, i, vs => do
    let a ←
      match vs, f.default? with
      | v :: _, _ => f.scalar.ofValue v
      | [], some a => pure a
      | [], none => unfit (tooShort title size i)
    let row ← elementsToRow title size length fs (i + 1) vs.tail
    pure (a, row)

/-- Takes the values of the fields from the members of an object. -/
def membersToDraft (fs : List Field) : Draft fs → List (String × Value) → Except Fault (Draft fs)
  | draft, [] => .ok draft
  | draft, (key, v) :: ms =>
    match Draft.put? (fun s => (s.ofValue v).map fun a => (a, ())) key fs draft with
    | some put => do
      let (draft, _) ← put
      membersToDraft fs draft ms
    | none => membersToDraft fs draft ms

/-- Takes the record `title` with the given fields from a tree. -/
def Value.toRow (title : String) (fs : List Field) : Value → Except Fault (Row fs)
  | array vs => elementsToRow title fs.length vs.length fs 0 vs
  | object ms => do
    let draft ← membersToDraft fs (Draft.empty fs) ms
    draft.complete fs
  | v => unfit (.wrongType (Found.ofValue v) title)

end OnlineAggregation.Json
