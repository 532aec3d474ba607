import OnlineAggregation.Text.Unshown

/-!
# Strings in messages

A string inside a message is put in quotes, with escapes for all that could be mistaken: the quote
and the backslash, line breaks, and characters without a shape of their own.
-/

namespace OnlineAggregation.Text

/-- A number in lower-case hexadecimal. -/
def hexadecimal (n : Nat) : List Char :=
  Nat.toDigits 16 n

/-- A character inside a quoted string. -/
def escapeInMessage (c : Char) : List Char :=
  if c = '"' then ['\\', '"']
  else if c = '\\' then ['\\', '\\']
  else if c = '\n' then ['\\', 'n']
  else if c = '\r' then ['\\', 'r']
  else if c = '\t' then ['\\', 't']
  else if c = '\x00' then ['\\', '0']
  else if isShown c then [c]
  else ['\\', 'u', '\x7b'] ++ hexadecimal c.toNat ++ ['\x7d']

/-- A string in quotes. -/
def quoted (s : String) : String :=
  String.ofList ('"' :: s.toList.flatMap escapeInMessage ++ ['"'])

end OnlineAggregation.Text
