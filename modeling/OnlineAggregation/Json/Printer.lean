import OnlineAggregation.Decimal.Layout
import OnlineAggregation.Json.Value

/-!
# Writing JSON

A value has two texts: a compact one without any white space, and an indented one with every
element and member on a line of its own. NaN and the infinities are written as `null`.
-/

namespace OnlineAggregation.Json

open Decimal (Layout)

/-! ## §1 Strings and numbers -/

/-- A character inside a quoted string. Quotes, backslashes and control characters are escaped;
every other character stands for itself. -/
def escape (c : Char) : List Char :=
  if c = '"' then ['\\', '"']
  else if c = '\\' then ['\\', '\\']
  else if c = '\n' then ['\\', 'n']
  else if c = '\r' then ['\\', 'r']
  else if c = '\t' then ['\\', 't']
  else if c = '\x08' then ['\\', 'b']
  else if c = '\x0c' then ['\\', 'f']
  else if c.toNat < 32 then
    ['\\', 'u', '0', '0', (c.toNat / 16).digitChar, (c.toNat % 16).digitChar]
  else [c]

def quote (s : String) : String :=
  String.ofList ('"' :: s.toList.flatMap escape ++ ['"'])

def Number.text : Number → String
  | natural n => toString n
  | negative n => "-" ++ toString n
  | float x => Layout.json.write x

namespace Value

/-! ## §2 Compact text -/

mutual

/-- The text of a value without white space. -/
def compact : Value → String
  | null => "null"
  | bool true => "true"
  | bool false => "false"
  | number n => n.text
  | string s => quote s
  | array elements => "[" ++ compactElements elements ++ "]"
  | object members => "\x7b" ++ compactMembers members ++ "\x7d"

def compactElements : List Value → String
  | [] => ""
  | [v] => v.compact
  | v :: vs => v.compact ++ "," ++ compactElements vs

def compactMembers : List (String × Value) → String
  | [] => ""
  | [(k, v)] => quote k ++ ":" ++ v.compact
  | (k, v) :: ms => quote k ++ ":" ++ v.compact ++ "," ++ compactMembers ms

end

/-! ## §3 Indented text -/

/-- A new line, indented by two spaces for each level. -/
def newline (level : Nat) : String :=
  String.ofList ('\n' :: List.replicate (2 * level) ' ')

mutual

/-- The text of a value that stands on a line indented by `level`. -/
def indented (level : Nat) : Value → String
  | null => "null"
  | bool true => "true"
  | bool false => "false"
  | number n => n.text
  | string s => quote s
  | array [] => "[]"
  | array (v :: vs) =>
    "[" ++ newline (level + 1) ++ v.indented (level + 1) ++ indentedElements (level + 1) vs ++
      newline level ++ "]"
  | object [] => "\x7b\x7d"
  | object ((k, v) :: ms) =>
    "\x7b" ++ newline (level + 1) ++ quote k ++ ": " ++ v.indented (level + 1) ++
      indentedMembers (level + 1) ms ++ newline level ++ "\x7d"

/-- The elements after the first, each with a comma before its line. -/
def indentedElements (level : Nat) : List Value → String
  | [] => ""
  | v :: vs => "," ++ newline level ++ v.indented level ++ indentedElements level vs

/-- The members after the first, each with a comma before its line. -/
def indentedMembers (level : Nat) : List (String × Value) → String
  | [] => ""
  | (k, v) :: ms =>
    "," ++ newline level ++ quote k ++ ": " ++ v.indented level ++ indentedMembers level ms

end

def pretty (v : Value) : String :=
  v.indented 0

end Value

end OnlineAggregation.Json
