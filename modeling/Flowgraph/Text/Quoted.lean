import Flowgraph.Text.Escaped

/-!
# Quoted text

Text is quoted between double quotes.  A backslash goes before a quote and before a backslash; the
null character, tab, line feed and carriage return have names of one letter; a character that
cannot be shown is written by its number in hexadecimal, in braces; all others stand for themselves.
-/

namespace Flowgraph.Text

/-- The digits of a number in base sixteen, in lower case. -/
def hexDigits (n : Nat) : List Char :=
  Nat.toDigits 16 n

def escapeChar (c : Char) : List Char :=
  if c = '"' then ['\\', '"']
  else if c = '\\' then ['\\', '\\']
  else if c = '\t' then ['\\', 't']
  else if c = '\n' then ['\\', 'n']
  else if c = '\r' then ['\\', 'r']
  else if c.toNat = 0 then ['\\', '0']
  else if isEscaped c then '\\' :: 'u' :: '\x7b' :: (hexDigits c.toNat ++ ['\x7d'])
  else [c]

def quote (text : String) : String :=
  String.ofList ('"' :: (text.toList.flatMap escapeChar ++ ['"']))

end Flowgraph.Text
