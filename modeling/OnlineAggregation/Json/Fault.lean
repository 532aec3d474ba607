import OnlineAggregation.Json.Printer
import OnlineAggregation.Text.Quoted

/-!
# What can be wrong with a JSON text

A text is malformed if no JSON text goes on this way, unfinished if it stops too early, and unfit
if it is JSON but not of the expected shape. A reader goes from left to right and reports the first
fault it meets.
-/

namespace OnlineAggregation.Json

/-- A place where no JSON text goes on this way. -/
inductive Malformed where
  | expectedValue
  | expectedWord
  | expectedColon
  | expectedCommaOrBrace
  | expectedCommaOrBracket
  | trailingComma
  | trailingCharacters
  | keyMustBeString
  | invalidNumber
  | numberOutOfRange
  | invalidEscape
  | controlCharacter
  | endOfHexEscape
  | loneSurrogate
  | tooDeep
deriving DecidableEq, Repr

/-- What was being read when the text ended. -/
inductive Unfinished where
  | value
  | object
  | list
  | string
deriving DecidableEq, Repr

/-- The kind of a value that was found, with as much of it as a message shows. -/
inductive Found where
  | null
  | bool (b : Bool)
  | number (n : Number)
  | string (s : String)
  | sequence
  | map
deriving DecidableEq

/-- How a value differs from what was expected of it. -/
inductive Unfit where
  /-- Another kind of value. -/
  | wrongType (found : Found) (expected : String)
  /-- The right kind, but out of range. -/
  | wrongValue (found : Found) (expected : String)
  | wrongLength (length : Nat) (expected : String)
  /-- A name that is none of the variants. -/
  | unknownVariant (name : String) (variants : List String)
  | missingField (name : String)
  | duplicateField (name : String)
deriving DecidableEq

/-- The first fault of a text. -/
inductive Fault where
  | malformed (cause : Malformed)
  | unfinished (place : Unfinished)
  | unfit (cause : Unfit)
deriving DecidableEq

/-! ## Messages -/

def Malformed.message : Malformed → String
  | expectedValue => "expected value"
  | expectedWord => "expected ident"
  | expectedColon => "expected `:`"
  | expectedCommaOrBrace => "expected `,` or `\x7d`"
  | expectedCommaOrBracket => "expected `,` or `]`"
  | trailingComma => "trailing comma"
  | trailingCharacters => "trailing characters"
  | keyMustBeString => "key must be a string"
  | invalidNumber => "invalid number"
  | numberOutOfRange => "number out of range"
  | invalidEscape => "invalid escape"
  | controlCharacter => "control character (\\u0000-\\u001F) found while parsing a string"
  | endOfHexEscape => "unexpected end of hex escape"
  | loneSurrogate => "lone leading surrogate in hex escape"
  | tooDeep => "recursion limit exceeded"

def Unfinished.message : Unfinished → String
  | value => "EOF while parsing a value"
  | object => "EOF while parsing an object"
  | list => "EOF while parsing a list"
  | string => "EOF while parsing a string"

/-- A text in back quotes. -/
def backQuoted (s : String) : String :=
  "`" ++ s ++ "`"

def Found.text : Found → String
  | null => "null"
  | bool b => "boolean " ++ backQuoted (if b then "true" else "false")
  | number (.float x) => "floating point " ++ backQuoted (Number.float x).text
  | number n => "integer " ++ backQuoted n.text
  | string s => "string " ++ Text.quoted s
  | sequence => "sequence"
  | map => "map"

def Found.ofValue : Value → Found
  | .null => .null
  | .bool b => .bool b
  | .number n => .number n
  | .string s => .string s
  | .array _ => .sequence
  | .object _ => .map

def Unfit.message : Unfit → String
  | wrongType found expected => "invalid type: " ++ found.text ++ ", expected " ++ expected
  | wrongValue found expected => "invalid value: " ++ found.text ++ ", expected " ++ expected
  | wrongLength length expected =>
    "invalid length " ++ toString length ++ ", expected " ++ expected
  | unknownVariant name variants =>
    "unknown variant " ++ backQuoted name ++ ", expected one of " ++
      ", ".intercalate (variants.map backQuoted)
  | missingField name => "missing field " ++ backQuoted name
  | duplicateField name => "duplicate field " ++ backQuoted name

def Fault.message : Fault → String
  | malformed cause => cause.message
  | unfinished place => place.message
  | unfit cause => cause.message

/-! ## Reporting -/

def malformed {α : Type} (cause : Malformed) : Except Fault α :=
  .error (.malformed cause)

def unfinished {α : Type} (place : Unfinished) : Except Fault α :=
  .error (.unfinished place)

/-- Refuses a value of the wrong shape. -/
def unfit {α : Type} (cause : Unfit) : Except Fault α :=
  .error (.unfit cause)

end OnlineAggregation.Json
