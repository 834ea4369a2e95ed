import SealedLog.Text.Graphic

/-!
# Quoted text in messages

The form in which a message shows a text that came from outside: between double quotes,
with the usual short escapes, and with a character that has no shape of its own written
as its number in braces. This form is for reading by people. It is not JSON, whose
escapes are in `SealedLog.Json.Printer`.
-/

namespace SealedLog.Text

/-- A character as it is written between quotes. -/
def showChar (c : Char) : List Char :=
  if c = '\x00' then ['\\', '0']
  else if c = '\t' then ['\\', 't']
  else if c = '\r' then ['\\', 'r']
  else if c = '\n' then ['\\', 'n']
  else if c = '"' then ['\\', '"']
  else if c = '\\' then ['\\', '\\']
  else if isGraphic c then [c]
  else ['\\', 'u', '\x7b'] ++ Nat.toDigits 16 c.toNat ++ ['\x7d']

def quoted (s : String) : String :=
  "\"" ++ String.ofList (s.toList.flatMap showChar) ++ "\""

end SealedLog.Text
