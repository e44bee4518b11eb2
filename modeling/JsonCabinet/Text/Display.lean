import JsonCabinet.Text.Hidden

/-!
# Quoted display of a string

A string between double quotes, for messages. Quotes, backslashes and the common controls have
short escapes; every other hidden character is shown by its number.
-/

namespace JsonCabinet.Text

/-- The number of a character, in lower-case hexadecimal digits between braces. -/
def numbered (c : Char) : List Char :=
  ['\\', 'u', '\x7b'] ++ Nat.toDigits 16 c.toNat ++ ['\x7d']

def displayChar (c : Char) : List Char :=
  if c = '\x00' then ['\\', '0']
  else if c = '\t' then ['\\', 't']
  else if c = '\r' then ['\\', 'r']
  else if c = '\n' then ['\\', 'n']
  else if c = '\\' then ['\\', '\\']
  else if c = '"' then ['\\', '"']
  else if isHidden c then numbered c
  else [c]

/-- The string as a message shows it. -/
def display (s : String) : String :=
  String.ofList ('"' :: (s.toList.flatMap displayChar ++ ['"']))

end JsonCabinet.Text
