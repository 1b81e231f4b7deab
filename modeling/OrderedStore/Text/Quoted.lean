import OrderedStore.Text.Bytes
import OrderedStore.Text.Utf8

/-!
# Quoted text

Reports quote the text of keys. Inside the quotes a quote and a backslash are written after a
backslash, the four common control characters by a letter or digit after a backslash, and every other
control character by its hexadecimal number in braces.
-/

namespace OrderedStore.Quoted

/-- Hexadecimal digits without leading zeros. -/
def hex (n : Nat) : List Char := Nat.toDigits 16 n

/-- Whether a character is a control character: the two blocks of 32 and the one between them. -/
def isControl (c : Char) : Bool := c.toNat < 0x20 || (0x7f ≤ c.toNat && c.toNat < 0xa0)

/-- How a character is written between quotes. -/
def escape (c : Char) : List Char :=
  if c = '"' then ['\\', '"']
  else if c = '\\' then ['\\', '\\']
  else if c = '\n' then ['\\', 'n']
  else if c = '\r' then ['\\', 'r']
  else if c = '\t' then ['\\', 't']
  else if c.toNat = 0 then ['\\', '0']
  else if isControl c then ['\\', 'u', '\x7b'] ++ hex c.toNat ++ ['\x7d']
  else [c]

/-- The quoted form of a text. -/
def quote (s : List Char) : String := String.ofList (['"'] ++ s.flatMap escape ++ ['"'])

/-- The quoted form of the text of a byte string. -/
def ofBytes (s : Bytes) : String := quote (Utf8.lossy s)

end OrderedStore.Quoted
