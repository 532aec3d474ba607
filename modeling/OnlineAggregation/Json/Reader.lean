import OnlineAggregation.Json.Lexeme
import OnlineAggregation.Json.Numeral

/-!
# Reading JSON

The skeleton of arrays and objects is read by two steps, `nextElement` and `nextKey`, and the loops
over them, `readElements` and `readMembers`. The loops are told how to read one element or member,
so readers of trees and readers of records share them.

Nesting is limited: `room` is how many more arrays or objects may be opened inside one another.
-/

namespace OnlineAggregation.Json

/-! ## §1 Scalars -/

/-- Reads a value that is neither array nor object, from its first character `c` on. -/
def readScalar (c : Char) (cs : List Char) : Except Fault (Value × List Char) :=
  if c = 'n' then (readWord ['u', 'l', 'l'] cs).map fun cs => (.null, cs)
  else if c = 't' then (readWord ['r', 'u', 'e'] cs).map fun cs => (.bool true, cs)
  else if c = 'f' then (readWord ['a', 'l', 's', 'e'] cs).map fun cs => (.bool false, cs)
  else if c = '"' then (readString cs).map fun (s, cs) => (.string s, cs)
  else if c = '-' then (readNumber true cs).map fun (n, cs) => (.number n, cs)
  else if (digit? c).isSome then (readNumber false (c :: cs)).map fun (n, cs) => (.number n, cs)
  else malformed .expectedValue

/-- The fault of a value that is not `expected`. -/
def misfit (expected : String) : List Char → Fault
  | [] => .unfinished .value
  | c :: cs =>
    if c = '[' then .unfit (.wrongType .sequence expected)
    else if c = '\x7b' then .unfit (.wrongType .map expected)
    -- A scalar is read first, so its own faults come before this one.
    else
      match readScalar c cs with
      | .ok (v, _) => .unfit (.wrongType (Found.ofValue v) expected)
      | .error fault => fault

/-! ## §2 Arrays -/

/-- Whether an array goes on, and the text from the next element or from the closing bracket. -/
def nextElement (first : Bool) (cs : List Char) : Except Fault (Bool × List Char) :=
  match skipBlank cs with
  | [] => unfinished .list
  | ']' :: cs => .ok (false, ']' :: cs)
  | c :: cs =>
    if first then .ok (true, c :: cs)
    else if c = ',' then
      match skipBlank cs with
      | [] => unfinished .value
      | ']' :: _ => malformed .trailingComma
      | cs => .ok (true, cs)
    else malformed .expectedCommaOrBracket

/-- Goes past the closing bracket of an array of which all expected elements were read. -/
def closeArray (cs : List Char) : Except Fault (List Char) :=
  match skipBlank cs with
  | [] => unfinished .list
  | ']' :: cs => .ok cs
  | ',' :: cs =>
    match skipBlank cs with
    | ']' :: _ => malformed .trailingComma
    | _ => malformed .trailingCharacters
  | _ => malformed .trailingCharacters

/-- Reads elements up to the closing bracket and past it, at most `fuel` of them. -/
def readElements {α : Type} (read : List Char → Except Fault (α × List Char)) :
    Nat → Bool → List Char → Except Fault (List α × List Char)
  | 0, _, _ => unfinished .list
  | fuel + 1, first, cs => do
    let (more, cs) ← nextElement first cs
    if more then
      let (a, cs) ← read cs
      let (as, cs) ← readElements read fuel false cs
      pure (a :: as, cs)
    else
      -- The closing bracket is still there.
      pure ([], cs.tail)

/-! ## §3 Objects -/

/-- The next key of an object and the text after it, or the text after the closing brace. -/
def nextKey (first : Bool) (cs : List Char) : Except Fault (Option String × List Char) :=
  match skipBlank cs with
  | [] => unfinished .object
  | '\x7d' :: cs => .ok (none, cs)
  | c :: cs =>
    if first then
      if c = '"' then (readString cs).map fun (s, cs) => (some s, cs)
      else malformed .keyMustBeString
    else if c = ',' then
      match skipBlank cs with
      | [] => unfinished .value
      | '"' :: cs => (readString cs).map fun (s, cs) => (some s, cs)
      | '\x7d' :: _ => malformed .trailingComma
      | _ => malformed .keyMustBeString
    else malformed .expectedCommaOrBrace

def skipColon (cs : List Char) : Except Fault (List Char) :=
  match skipBlank cs with
  | [] => unfinished .object
  | ':' :: cs => .ok cs
  | _ => malformed .expectedColon

/-- Reads members up to the closing brace and past it, at most `fuel` of them. `member` takes what
is known so far, the key, and the text after the key. -/
def readMembers {σ : Type} (member : σ → String → List Char → Except Fault (σ × List Char)) :
    Nat → Bool → σ → List Char → Except Fault (σ × List Char)
  | 0, _, _, _ => unfinished .object
  | fuel + 1, first, known, cs => do
    match ← nextKey first cs with
    | (some key, cs) =>
      let (known, cs) ← member known key cs
      readMembers member fuel false known cs
    | (none, cs) => pure (known, cs)

/-! ## §4 Trees -/

def readValue : Nat → List Char → Except Fault (Value × List Char)
  | room, cs =>
    match skipBlank cs with
    | [] => unfinished .value
    | '[' :: cs =>
      match room with
      | 0 => malformed .tooDeep
      | room + 1 =>
        (readElements (readValue room) (cs.length + 1) true cs).map fun (vs, cs) =>
          (.array vs, cs)
    | '\x7b' :: cs =>
      match room with
      | 0 => malformed .tooDeep
      | room + 1 =>
        let member (known : List (String × Value)) (key : String) (cs : List Char) := do
          let cs ← skipColon cs
          let (v, cs) ← readValue room cs
          pure ((key, v) :: known, cs)
        (readMembers member (cs.length + 1) true [] cs).map fun (ms, cs) =>
          (.object ms.reverse, cs)
    | c :: cs => readScalar c cs

/-- How many arrays and objects may be open at once. -/
def greatestDepth : Nat := 127

/-- Reads a whole text with `read`; only white space may follow. -/
def readWhole {α : Type} (read : List Char → Except Fault (α × List Char)) (text : String) :
    Except Fault α := do
  let (a, cs) ← read text.toList
  match skipBlank cs with
  | [] => pure a
  | _ => malformed .trailingCharacters

/-- The tree of a text. -/
def Value.parse (text : String) : Except Fault Value :=
  readWhole (readValue greatestDepth) text

/-! ## §5 Skipping a value -/

/-- What is open around a value that is skipped. -/
inductive Enclosure where
  | array
  | object
deriving DecidableEq, Repr

def skipKey (cs : List Char) : Except Fault (List Char) :=
  match skipBlank cs with
  | [] => unfinished .object
  | '"' :: cs => skipString cs >>= skipColon
  | _ => malformed .keyMustBeString

def skipScalar (c : Char) (cs : List Char) : Except Fault (List Char) :=
  if c = 'n' then readWord ['u', 'l', 'l'] cs
  else if c = 't' then readWord ['r', 'u', 'e'] cs
  else if c = 'f' then readWord ['a', 'l', 's', 'e'] cs
  else if c = '"' then skipString cs
  else if c = '-' then skipNumber cs
  else if (digit? c).isSome then skipNumber (c :: cs)
  else malformed .expectedValue

/-- Goes past the closing brackets after a value and up to the next value inside the
given frames, innermost first. The answer has the frames still open, none of them once the outermost
value is over. -/
def skipToNext : Bool → List Enclosure → List Char → Except Fault (List Enclosure × List Char)
  | _, [], cs => .ok ([], cs)
  | afterValue, frame :: outer, cs =>
    match frame, skipBlank cs with
    | .array, [] => unfinished .list
    | .object, [] => unfinished .object
    -- A closed frame is itself a value of the frame around it.
    | .array, ']' :: cs => skipToNext true outer cs
    | .object, '\x7d' :: cs => skipToNext true outer cs
    | .array, c :: cs =>
      if ¬ afterValue then .ok (.array :: outer, c :: cs)
      else if c = ',' then .ok (.array :: outer, cs)
      else malformed .expectedCommaOrBracket
    | .object, c :: cs =>
      if ¬ afterValue then (skipKey (c :: cs)).map fun cs => (.object :: outer, cs)
      else if c = ',' then (skipKey cs).map fun cs => (.object :: outer, cs)
      else malformed .expectedCommaOrBrace

/-- Goes past the values inside `frames`, at most `fuel` of them. -/
def skipWithin : Nat → List Enclosure → List Char → Except Fault (List Char)
  | 0, _, _ => unfinished .value
  | fuel + 1, frames, cs => do
    let (frames, cs) ←
      match skipBlank cs with
      | [] => unfinished .value
      | '[' :: cs => skipToNext false (.array :: frames) cs
      | '\x7b' :: cs => skipToNext false (.object :: frames) cs
      | c :: cs => skipScalar c cs >>= skipToNext true frames
    match frames with
    | [] => pure cs
    | _ => skipWithin fuel frames cs

/-- Goes past any value, however deeply nested. -/
def skipValue (cs : List Char) : Except Fault (List Char) :=
  -- Every value inside takes at least one character.
  skipWithin (cs.length + 1) [] cs

end OnlineAggregation.Json
