import LineTokens.Text.Unprintable

/-!
Texts in double quotes. Quotes and backslashes are escaped by a backslash, four controls have short
names, and what cannot be seen is written by its code.
-/

namespace LineTokens.Text

/-- A code point in hexadecimal, with as many digits as it needs. -/
def codeEscape (c : Char) : List Char :=
  ['\\', 'u', '\x7b'] ++ Nat.toDigits 16 c.toNat ++ ['\x7d']

def escapeChar (c : Char) : List Char :=
  if c = '\x00' then ['\\', '0']
  else if c = '\t' then ['\\', 't']
  else if c = '\r' then ['\\', 'r']
  else if c = '\n' then ['\\', 'n']
  else if c = '\\' ∨ c = '"' then ['\\', c]
  else if isShownByCode c then codeEscape c
  else [c]

def quoted (s : String) : String :=
  "\"" ++ String.ofList (s.toList.flatMap escapeChar) ++ "\""

end LineTokens.Text
