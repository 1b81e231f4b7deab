/-!
# Decimal numerals

Counts and scores are written and read in decimal digits.
-/

namespace OrderedStore.Decimal

/-- The value of a character that is one of the ten digits. -/
def digit? (c : Char) : Option Nat :=
  if '0' ≤ c ∧ c ≤ '9' then some (c.toNat - '0'.toNat) else none

def isDigit (c : Char) : Bool := (digit? c).isSome

/-- The number that a string of digits stands for, going on from `start`. -/
def value (start : Nat) (digits : List Char) : Nat :=
  digits.foldl (fun n c => 10 * n + (digit? c).getD 0) start

/-- The number that a whole text stands for, if it is one or more digits. -/
def read? (s : List Char) : Option Nat :=
  if s ≠ [] ∧ s.all isDigit then some (value 0 s) else none

/-- The digits of a number. -/
def digits (n : Nat) : List Char := Nat.toDigits 10 n

/-- How many digits a number has. -/
def length (n : Nat) : Nat := (digits n).length

/-- A number in at least `width` digits, with zeros in front. -/
def padded (width n : Nat) : List Char :=
  List.replicate (width - length n) '0' ++ digits n

end OrderedStore.Decimal
