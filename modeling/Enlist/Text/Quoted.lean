import Enlist.Text.Visible

/-!
# Quoted text

The written form of a text between double quotes, as descriptions of edits show it. The quote and the
backslash are written behind a backslash, four controls by a letter, and every character without a
visible form by its number: `\\u`, a brace, the lower-case hexadecimal digits, and a brace. Everything
else stands for itself.
-/

namespace Enlist.Text.Quoted

/-- The hexadecimal digits of a number, in lower case. -/
def hexDigits (n : Nat) : List Char :=
  Nat.toDigits 16 n

def encodeChar (c : Char) : List Char :=
  if c = '\x00' then ['\\', '0']
  else if c = '\t' then ['\\', 't']
  else if c = '\r' then ['\\', 'r']
  else if c = '\n' then ['\\', 'n']
  else if c = '"' then ['\\', '"']
  else if c = '\\' then ['\\', '\\']
  else if isVisible c then [c]
  else ['\\', 'u', '\x7b'] ++ hexDigits c.toNat ++ ['\x7d']

/-- The written form of a text, without the quotes around it. -/
def encode (cs : List Char) : List Char :=
  cs.flatMap encodeChar

end Enlist.Text.Quoted

namespace Enlist.Text

/-- The text between double quotes. -/
def quoted (s : String) : String :=
  String.ofList ('"' :: Quoted.encode s.toList ++ ['"'])

end Enlist.Text
