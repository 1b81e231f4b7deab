import OrderedStore.Binary64.Round
import OrderedStore.Text.Decimal

/-!
# Reading doubles

A numeral is an optional sign, digits with at most one point among or beside them, and an optional
exponent. The words for infinity and for "not a number" are read as well, in upper and lower case. A
numeral stands for the double nearest to its exact value.
-/

namespace OrderedStore.Binary64

/-- An unsigned numeral: `digits * 10 ^ exponent`. -/
structure Numeral where
  digits : Nat
  exponent : Int
  deriving DecidableEq, Repr

/-- The exponent part of a numeral, or nothing at all. -/
def readExponent? : List Char → Option Int
  | [] => some 0
  | c :: s =>
    if c = 'e' ∨ c = 'E' then
      match s with
      | '+' :: digits => (Decimal.read? digits).map Int.ofNat
      | '-' :: digits => (Decimal.read? digits).map fun n => -(n : Int)
      | digits => (Decimal.read? digits).map Int.ofNat
    else none

/-- An unsigned numeral, if the whole text is one. -/
def readNumeral? (s : List Char) : Option Numeral :=
  let whole := s.takeWhile Decimal.isDigit
  let rest := s.dropWhile Decimal.isDigit
  let (part, rest) := match rest with
    | '.' :: rest => (rest.takeWhile Decimal.isDigit, rest.dropWhile Decimal.isDigit)
    | rest => ([], rest)
  if whole = [] ∧ part = [] then none
  else (readExponent? rest).map fun e => ⟨Decimal.value 0 (whole ++ part), e - part.length⟩

/-- The double nearest to a numeral. Exponents that leave no doubt are not multiplied out. -/
def Numeral.round (n : Numeral) : Binary64 :=
  if n.digits = 0 then zero
  else
    let top : Int := Decimal.length n.digits + n.exponent
    if top > 310 then infinity
    else if top < -330 then zero
    else if n.exponent < 0 then ofRatio n.digits (Nat.pow 10 (-n.exponent).toNat)
    else ofRatio (n.digits * Nat.pow 10 n.exponent.toNat) 1

/-- An unsigned text that stands for a double. -/
def readUnsigned? (s : List Char) : Option Binary64 :=
  let word := s.map Char.toLower
  if word = ['i', 'n', 'f'] ∨ word = ['i', 'n', 'f', 'i', 'n', 'i', 't', 'y'] then some infinity
  else if word = ['n', 'a', 'n'] then some nan
  else (readNumeral? s).map Numeral.round

/-- The double that a text stands for, if it stands for one. -/
def read? : List Char → Option Binary64
  | '-' :: s => (readUnsigned? s).map negate
  | '+' :: s => readUnsigned? s
  | s => readUnsigned? s

end OrderedStore.Binary64
