import OnlineAggregation.Config.Choice

/-!
# Reading a choice

A choice is written as an object with the members `type` and `params`, or as an array of these two.
How `params` is read depends on `type`. If `type` comes first, the parameters are read straight from
the text. If it comes second, they are read as a tree and looked at once the kind is known. Other
members are skipped.
-/

namespace OnlineAggregation.Config

open Json

/-! ## §1 The kind -/

/-- The kind of a name in a text. -/
def kindNamed (s : String) : Except Fault Kind :=
  match Kind.ofName? s with
  | some k => .ok k
  | none => unfit (.unknownVariant s (Kind.all.map Kind.name))

/-- Reads a kind as a string, which a value or a key may be. -/
def readKindName (cs : List Char) : Except Fault (Kind × List Char) :=
  match skipBlank cs with
  | '"' :: cs => do
    let (s, cs) ← readString cs
    let k ← kindNamed s
    pure (k, cs)
  | cs => .error (misfit "variant identifier" cs)

/-- Goes past the content of a variant that has none: a colon and `null`. -/
def skipNoContent (cs : List Char) : Except Fault (List Char) := do
  let cs ← skipColon cs
  match skipBlank cs with
  | 'n' :: cs => readWord ['u', 'l', 'l'] cs
  | cs => .error (misfit "unit" cs)

/-- Reads a kind as the only key of an object, after its opening brace. -/
def readKindKey (cs : List Char) : Except Fault (Kind × List Char) :=
  match skipBlank cs with
  | [] => unfinished .object
  | '"' :: cs => readKindName ('"' :: cs)
  | '\x7d' :: _ => malformed .expectedValue
  | _ => malformed .keyMustBeString

/-- Reads a kind as the value of a member: a string, or an object whose only key it is. -/
def readKind (room : Nat) (cs : List Char) : Except Fault (Kind × List Char) :=
  match skipBlank cs with
  | [] => unfinished .value
  | '"' :: cs => readKindName ('"' :: cs)
  | '\x7b' :: cs =>
    if room = 0 then malformed .tooDeep
    else do
      let (k, cs) ← readKindKey cs
      let cs ← skipNoContent cs
      match skipBlank cs with
      | [] => unfinished .object
      | '\x7d' :: cs => pure (k, cs)
      | _ => malformed .expectedValue
  | _ => malformed .expectedValue

/-! ## §2 The parameters -/

def paramsTitle (k : Kind) : String :=
  "struct " ++ k.recordName

/-- Reads the parameters of a kind from the text. -/
def readParams (k : Kind) (room : Nat) (cs : List Char) : Except Fault (Choice × List Char) :=
  (readRecord (paramsTitle k) k.fields room cs).map fun (row, cs) => (Choice.ofRow k row, cs)

/-- Takes the parameters of a kind from a tree. -/
def paramsOfValue (k : Kind) (v : Value) : Except Fault Choice :=
  (v.toRow (paramsTitle k) k.fields).map (Choice.ofRow k)

/-! ## §3 The choice -/

/-- What is known of a choice while its members are read. -/
inductive Progress where
  | nothing
  /-- The kind, but no parameters. -/
  | kind (k : Kind)
  /-- Parameters, but no kind to read them by. -/
  | params (v : Value)
  | choice (c : Choice)

def readTypeMember (room : Nat) (known : Progress) (cs : List Char) :
    Except Fault (Progress × List Char) :=
  match known with
  | .kind _ | .choice _ => unfit (.duplicateField "type")
  | .nothing => do
    let cs ← skipColon cs
    let (k, cs) ← readKind room cs
    pure (.kind k, cs)
  | .params v => do
    let cs ← skipColon cs
    let (k, cs) ← readKind room cs
    -- The parameters came first, as a tree, and can be read only now.
    let c ← paramsOfValue k v
    pure (.choice c, cs)

def readParamsMember (room : Nat) (known : Progress) (cs : List Char) :
    Except Fault (Progress × List Char) :=
  match known with
  | .params _ | .choice _ => unfit (.duplicateField "params")
  | .nothing => do
    let cs ← skipColon cs
    -- Any value will do until the kind is known.
    let (v, cs) ← readValue room cs
    pure (.params v, cs)
  | .kind k => do
    let cs ← skipColon cs
    let (c, cs) ← readParams k room cs
    pure (.choice c, cs)

def readMember (room : Nat) (known : Progress) (key : String) (cs : List Char) :
    Except Fault (Progress × List Char) :=
  if key = "type" then readTypeMember room known cs
  else if key = "params" then readParamsMember room known cs
  else do
    -- Members with other keys are passed over.
    let cs ← skipColon cs
    let cs ← skipValue cs
    pure (known, cs)

/-- The choice of which all members were read. -/
def Progress.complete : Progress → Except Fault Choice
  | nothing | params _ => unfit (.missingField "type")
  | kind _ => unfit (.missingField "params")
  | choice c => .ok c

def choiceTitle : String :=
  "adjacently tagged enum BoundChoice"

/-- Reads a choice as an array of kind and parameters, after its opening bracket. -/
def readPair (room : Nat) (cs : List Char) : Except Fault (Choice × List Char) := do
  let (more, cs) ← nextElement true cs
  if more then
    let (k, cs) ← readKindName cs
    let (more, cs) ← nextElement false cs
    if more then
      let (c, cs) ← readParams k room cs
      let cs ← closeArray cs
      pure (c, cs)
    else unfit (.wrongLength 1 choiceTitle)
  else unfit (.wrongLength 0 choiceTitle)

def readChoice : Nat → List Char → Except Fault (Choice × List Char)
  | room, cs =>
    match skipBlank cs with
    | '[' :: cs =>
      match room with
      | 0 => malformed .tooDeep
      | room + 1 => readPair room cs
    | '\x7b' :: cs =>
      match room with
      | 0 => malformed .tooDeep
      | room + 1 => do
        let (known, cs) ← readMembers (readMember room) (cs.length + 1) true .nothing cs
        let c ← known.complete
        pure (c, cs)
    | cs => .error (misfit choiceTitle cs)

def Choice.parse (text : String) : Except Fault Choice :=
  readWhole (readChoice greatestDepth) text

end OnlineAggregation.Config
