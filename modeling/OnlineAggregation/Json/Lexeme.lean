import OnlineAggregation.Json.Fault

/-!
# White space, words and strings

The smallest parts of a JSON text. Each reader takes the text from where the part begins and gives
back what follows it.
-/

namespace OnlineAggregation.Json

/-! ## §1 White space and words -/

/-- The white space of JSON. -/
def isBlank (c : Char) : Bool :=
  c = ' ' || c = '\t' || c = '\n' || c = '\r'

/-- The text from its first character that is not white space. -/
def skipBlank (cs : List Char) : List Char :=
  cs.dropWhile isBlank

/-- Reads the letters of a word whose first letter was read. -/
def readWord : List Char → List Char → Except Fault (List Char)
  | [], cs => .ok cs
  | _ :: _, [] => unfinished .value
  | w :: word, c :: cs => if c = w then readWord word cs else malformed .expectedWord

/-! ## §2 Escapes -/

def hexValue? (c : Char) : Option Nat :=
  if '0' ≤ c ∧ c ≤ '9' then some (c.toNat - 48)
  else if 'a' ≤ c ∧ c ≤ 'f' then some (c.toNat - 87)
  else if 'A' ≤ c ∧ c ≤ 'F' then some (c.toNat - 55)
  else none

/-- The 16-bit unit written by four hexadecimal digits. -/
def hexUnit? (a b c d : Char) : Option Nat := do
  let a ← hexValue? a
  let b ← hexValue? b
  let c ← hexValue? c
  let d ← hexValue? d
  pure (((a * 16 + b) * 16 + c) * 16 + d)

/-- Whether a unit is the first half of a character beyond 16 bits. -/
def isLeading (n : Nat) : Bool :=
  0xD800 ≤ n && n ≤ 0xDBFF

/-- Whether a unit is the second half of a character beyond 16 bits. -/
def isTrailing (n : Nat) : Bool :=
  0xDC00 ≤ n && n ≤ 0xDFFF

/-- The character of two halves. -/
def joined (leading trailing : Nat) : Char :=
  Char.ofNat ((leading - 0xD800) * 0x400 + (trailing - 0xDC00) + 0x10000)

/-- The character of a one-letter escape. -/
def simpleEscape? (c : Char) : Option Char :=
  if c = '"' ∨ c = '\\' ∨ c = '/' then some c
  else if c = 'b' then some '\x08'
  else if c = 'f' then some '\x0c'
  else if c = 'n' then some '\n'
  else if c = 'r' then some '\r'
  else if c = 't' then some '\t'
  else none

/-- The fault of a unit with fewer than four characters to come. -/
def shortUnit (cs : List Char) : Fault :=
  -- The four digits are taken as bytes, so a wide character can spoil them before the text ends.
  if (String.ofList cs).utf8ByteSize < 4 then .unfinished .string else .malformed .invalidEscape

/-- The fault of a leading half that no complete unit follows. -/
def unpaired : List Char → Fault
  | [] => .unfinished .string
  | ['\\'] => .unfinished .string
  | '\\' :: 'u' :: cs => shortUnit cs
  | _ => .malformed .endOfHexEscape

/-! ## §3 Strings -/

/-- Puts a character in front of what was read. -/
def withFirst (c : Char) (r : Except Fault (List Char × List Char)) :
    Except Fault (List Char × List Char) :=
  r.map fun (s, cs) => (c :: s, cs)

/-- Reads the rest of a string whose opening quote was read. -/
def readChars : List Char → Except Fault (List Char × List Char)
  | [] => unfinished .string
  | '"' :: cs => .ok ([], cs)
  | ['\\'] => unfinished .string
  | '\\' :: 'u' :: a :: b :: c :: d :: cs =>
    match hexUnit? a b c d with
    | none => malformed .invalidEscape
    | some n =>
      if isTrailing n then malformed .loneSurrogate
      else if isLeading n then
        -- A character beyond 16 bits takes a second escape.
        match cs with
        | '\\' :: 'u' :: e :: f :: g :: h :: cs =>
          match hexUnit? e f g h with
          | none => malformed .invalidEscape
          | some m =>
            if isTrailing m then withFirst (joined n m) (readChars cs)
            else malformed .loneSurrogate
        | cs => .error (unpaired cs)
      else withFirst (Char.ofNat n) (readChars cs)
  | '\\' :: 'u' :: cs => .error (shortUnit cs)
  | '\\' :: c :: cs =>
    match simpleEscape? c with
    | none => malformed .invalidEscape
    | some x => withFirst x (readChars cs)
  | c :: cs =>
    if c.toNat < 32 then malformed .controlCharacter else withFirst c (readChars cs)

def readString (cs : List Char) : Except Fault (String × List Char) :=
  (readChars cs).map fun (s, cs) => (String.ofList s, cs)

/-- Goes past the rest of a string. -/
def skipString : List Char → Except Fault (List Char)
  | [] => unfinished .string
  | '"' :: cs => .ok cs
  | ['\\'] => unfinished .string
  | '\\' :: 'u' :: a :: b :: c :: d :: cs =>
    -- Half of a character needs no partner here.
    if (hexUnit? a b c d).isSome then skipString cs else malformed .invalidEscape
  | '\\' :: 'u' :: cs => .error (shortUnit cs)
  | '\\' :: c :: cs =>
    if (simpleEscape? c).isSome then skipString cs else malformed .invalidEscape
  | c :: cs => if c.toNat < 32 then malformed .controlCharacter else skipString cs

end OnlineAggregation.Json
