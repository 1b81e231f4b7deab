import OrderedStore.Binary64.Basic

/-!
# Rounding to doubles

The double nearest to a fraction of naturals. Halfway between two doubles the one with an even last bit
is taken; past the largest finite double, by half a step or more, stands infinity.
-/

namespace OrderedStore.Binary64

/-- A fraction rounded to the nearest natural, a half to the even neighbour. -/
def roundToEven (num den : Nat) : Nat :=
  let floor := num / den
  let twice := 2 * (num % den)
  if twice > den ∨ (twice = den ∧ floor % 2 = 1) then floor + 1 else floor

/-- `num / den / 2 ^ e`, as numerator and denominator. -/
def scaled (num den : Nat) (e : Int) : Nat × Nat :=
  if e < 0 then (num * Nat.pow 2 (-e).toNat, den) else (num, den * Nat.pow 2 e.toNat)

/-- The exponent that leaves 53 bits before the point, but never less than the smallest there is. -/
def exponentFor (num den : Nat) : Int :=
  let e : Int := (Nat.log2 num : Int) - Nat.log2 den - 52
  let (a, b) := scaled num den e
  max leastExponent (if a / b < 0x10000000000000 then e - 1 else e)

/-- The double nearest to `num / den`. A significand that rounds up to 54 bits carries into the exponent
by itself, for the two lie side by side in the word. -/
def ofRatio (num den : Nat) : Binary64 :=
  if num = 0 then zero
  else
    let e := exponentFor num den
    let (a, b) := scaled num den e
    let word := (e - leastExponent).toNat * 0x10000000000000 + roundToEven a b
    if word < infinityMagnitude then ⟨UInt64.ofNat word⟩ else infinity

/-- The double nearest to an integer. -/
def ofInt (i : Int) : Binary64 :=
  let x := ofRatio i.natAbs 1
  if i < 0 then x.negate else x

end OrderedStore.Binary64
