import PagedIndex.Text.Hidden

/-!
# Quoted text

A text as messages quote it: between double quotes, with a quote, a backslash and the characters that
would not show written as escapes. Letters of any script stand as they are.
-/

namespace PagedIndex.Text.Quoted

/-- A number in lower-case hexadecimal digits. -/
def hex (n : Nat) : List Char := Nat.toDigits 16 n

/-- One character of a quoted text. -/
def escape (c : Char) : List Char :=
  if c = '"' then ['\\', '"']
  else if c = '\\' then ['\\', '\\']
  else if c = '\n' then ['\\', 'n']
  else if c = '\r' then ['\\', 'r']
  else if c = '\t' then ['\\', 't']
  else if c.toNat = 0 then ['\\', '0']
  else if Hidden.isHidden c then "\\u\x7b".toList ++ hex c.toNat ++ "\x7d".toList
  else [c]

/-- The quoted text. -/
def encode (s : String) : String :=
  "\"" ++ String.ofList (s.toList.flatMap escape) ++ "\""

end PagedIndex.Text.Quoted
