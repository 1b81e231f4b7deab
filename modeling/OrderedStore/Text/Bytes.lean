import OrderedStore.Bytes

/-!
# Byte strings in reports

Reports name a byte string by the decimal list of its bytes, and a single byte by two hexadecimal
digits.
-/

namespace OrderedStore.Bytes

/-- The bytes in decimal, as a bracketed list. -/
def listing (s : Bytes) : String := "[" ++ String.intercalate ", " (s.map fun b => toString b.toNat) ++ "]"

def hexDigit (n : Nat) : Char := if n < 10 then Char.ofNat (48 + n) else Char.ofNat (87 + n)

/-- A byte as two lower-case hexadecimal digits. -/
def hexByte (b : UInt8) : String := String.ofList [hexDigit (b.toNat / 16), hexDigit (b.toNat % 16)]

end OrderedStore.Bytes
