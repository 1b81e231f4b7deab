/-!
# Scores as 64-bit floating-point words

A score is a double, held as its 64 bits: one sign bit, eleven exponent bits, fifty-two fraction bits.
Nothing here computes with scores; they are compared, stored, read and written. The comparison is the
numeric one: the two zeros are equal, and a word that is not a number is below, above and equal to
nothing, itself included.
-/

namespace OrderedStore

/-- A double, by its bits. -/
structure Binary64 where
  bits : UInt64
  deriving DecidableEq, Repr, Inhabited

namespace Binary64

/-- The bit that tells negative words from the others. -/
def signBit : UInt64 := 0x8000000000000000

/-- The magnitude bits of infinity. A larger magnitude is not a number. -/
def infinityMagnitude : Nat := 0x7ff0000000000000

def negative (x : Binary64) : Bool := x.bits &&& signBit != 0

/-- Exponent and fraction as one number. Among numbers of one sign it grows with the absolute value. -/
def magnitude (x : Binary64) : Nat := x.bits.toNat % 0x8000000000000000

def isNaN (x : Binary64) : Bool := infinityMagnitude < x.magnitude

def isInfinite (x : Binary64) : Bool := x.magnitude == infinityMagnitude

/-- The place of a number in numeric order, counted in representable steps from zero. -/
def rank (x : Binary64) : Int := if x.negative then -(x.magnitude : Int) else x.magnitude

/-- Numeric equality. -/
def same (x y : Binary64) : Bool := !x.isNaN && !y.isNaN && x.rank == y.rank

/-- Numeric "less than". -/
def below (x y : Binary64) : Bool := !x.isNaN && !y.isNaN && x.rank < y.rank

/-- Numeric "at most". -/
def atMost (x y : Binary64) : Bool := !x.isNaN && !y.isNaN && x.rank ≤ y.rank

def zero : Binary64 := ⟨0⟩
def infinity : Binary64 := ⟨0x7ff0000000000000⟩
def negInfinity : Binary64 := ⟨0xfff0000000000000⟩

/-- The word that stands for "not a number" when a text names it. -/
def nan : Binary64 := ⟨0x7ff8000000000000⟩

/-- The same number with the sign bit turned over. -/
def negate (x : Binary64) : Binary64 := ⟨x.bits ^^^ signBit⟩

/-- The smallest exponent: the last bit of the smallest words stands for `2 ^ -1074`. -/
def leastExponent : Int := -1074

/-- A finite word's absolute value as `m * 2 ^ q`, with `m` below `2 ^ 53`. -/
def parts (x : Binary64) : Nat × Int :=
  let e : Nat := x.magnitude / 0x10000000000000
  let f : Nat := x.magnitude % 0x10000000000000
  if e = 0 then (f, leastExponent) else (0x10000000000000 + f, (e : Int) - 1075)

theorem same_comm (x y : Binary64) : same x y = same y x := by
  unfold same
  rw [Bool.and_comm (!x.isNaN), Bool.beq_comm]

theorem atMost_iff (x y : Binary64) : atMost x y = (below x y || same x y) := by
  unfold atMost below same
  cases x.isNaN <;> cases y.isNaN <;> simp
  rw [Bool.eq_iff_iff]
  simp
  omega

end Binary64

end OrderedStore
