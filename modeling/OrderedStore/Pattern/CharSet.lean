import OrderedStore.Text.Blank
import OrderedStore.Text.CaseVariant
import OrderedStore.Text.DecimalDigit
import OrderedStore.Text.Utf8
import OrderedStore.Text.WordChar

/-!
# Sets of characters

A set of characters is kept as ranges of numbers in ascending order, any two of them with a gap between,
so that a set has one form. The sets that patterns know by a letter or a name are here too.
-/

namespace OrderedStore.Pattern

/-- A set of characters, by their numbers. -/
structure CharSet where
  /-- The first and the last number of each range, in ascending order; no two ranges touch. -/
  ranges : List (Nat × Nat)
  deriving DecidableEq, Repr

namespace CharSet

/-- The largest number of a character. -/
def lastNumber : Nat := 0x10ffff

/-- Make one range of ranges that overlap or touch. The ranges are in the order in which they begin. -/
def fuse : List (Nat × Nat) → List (Nat × Nat)
  | (low, high) :: (low', high') :: rs =>
    if low' ≤ high + 1 then fuse ((low, max high high') :: rs)
    else (low, high) :: fuse ((low', high') :: rs)
  | rs => rs
termination_by rs => rs.length

/-- The set that some ranges, in any order, cover. -/
def ofRanges (rs : List (Nat × Nat)) : CharSet := ⟨fuse (rs.mergeSort fun a b => a.1 ≤ b.1)⟩

/-- The set without characters. -/
def none : CharSet := ⟨[]⟩

/-- The set of one character. -/
def char (c : Char) : CharSet := ⟨[(c.toNat, c.toNat)]⟩

/-- Whether a set holds the character of a number. -/
def has (s : CharSet) (n : Nat) : Bool := s.ranges.any fun (low, high) => low ≤ n && n ≤ high

/-- The number of the next character. Between `0xd7ff` and `0xe000` no number is a character. -/
def next (n : Nat) : Nat := if n = 0xd7ff then 0xe000 else n + 1

/-- The number of the character before. -/
def previous (n : Nat) : Nat := if n = 0xe000 then 0xd7ff else n - 1

/-- What ranges leave out, from a number on. -/
def gaps (start : Nat) : List (Nat × Nat) → List (Nat × Nat)
  | [] => if start ≤ lastNumber then [(start, lastNumber)] else []
  | (low, high) :: rs =>
    if start < low then (start, previous low) :: gaps (next high) rs else gaps (next high) rs

/-- All characters that a set does not hold. -/
def outside (s : CharSet) : CharSet := ⟨gaps 0 s.ranges⟩

/-- All characters of either set. -/
def union (a b : CharSet) : CharSet := ofRanges (a.ranges ++ b.ranges)

/-- The characters in both sets: what lies outside neither. -/
def both (a b : CharSet) : CharSet := (a.outside.union b.outside).outside

/-- The characters of the first set that the second does not hold. -/
def minus (a b : CharSet) : CharSet := a.both b.outside

/-- What a negation sign makes of a set: all characters outside. Two ranges with only numbers between them
that are no characters are held to leave out something all the same, and it is taken to be the characters
on either side. -/
def negation (s : CharSet) : CharSet :=
  if s.ranges.any (·.2 == 0xd7ff) && s.ranges.any (·.1 == 0xe000) then
    s.outside.union ⟨[(0xd7ff, 0xe000)]⟩
  else s.outside

/-- The characters that one of two sets holds and the other does not. -/
def either (a b : CharSet) : CharSet := (a.minus b).union (b.minus a)

/-- A set with all case variants of what it holds. -/
def anyCase (s : CharSet) : CharSet :=
  ofRanges (s.ranges ++
    CaseVariant.pairs.filterMap fun (n, variant) => if s.has n then some (variant, variant) else Option.none)

/-- How many bytes the characters of a set may take. -/
def widths (s : CharSet) : List Nat :=
  [1, 2, 3, 4].filter fun n => s.ranges.any fun (low, high) => Utf8.size low ≤ n && n ≤ Utf8.size high

/-- The set behind a class letter; an upper-case letter stands for what lies outside. -/
def ofLetter? : Char → Option CharSet
  | 'd' => some ⟨DecimalDigit.ranges⟩
  | 'D' => some (outside ⟨DecimalDigit.ranges⟩)
  | 's' => some ⟨Blank.ranges⟩
  | 'S' => some (outside ⟨Blank.ranges⟩)
  | 'w' => some ⟨WordChar.ranges⟩
  | 'W' => some (outside ⟨WordChar.ranges⟩)
  | _ => Option.none

/-- The named sets of seven-bit characters. -/
def ofName? (name : String) : Option CharSet :=
  match name with
  | "alnum" => some ⟨[(0x30, 0x39), (0x41, 0x5a), (0x61, 0x7a)]⟩
  | "alpha" => some ⟨[(0x41, 0x5a), (0x61, 0x7a)]⟩
  | "ascii" => some ⟨[(0x00, 0x7f)]⟩
  | "blank" => some ⟨[(0x09, 0x09), (0x20, 0x20)]⟩
  | "cntrl" => some ⟨[(0x00, 0x1f), (0x7f, 0x7f)]⟩
  | "digit" => some ⟨[(0x30, 0x39)]⟩
  | "graph" => some ⟨[(0x21, 0x7e)]⟩
  | "lower" => some ⟨[(0x61, 0x7a)]⟩
  | "print" => some ⟨[(0x20, 0x7e)]⟩
  | "punct" => some ⟨[(0x21, 0x2f), (0x3a, 0x40), (0x5b, 0x60), (0x7b, 0x7e)]⟩
  | "space" => some ⟨[(0x09, 0x0d), (0x20, 0x20)]⟩
  | "upper" => some ⟨[(0x41, 0x5a)]⟩
  | "word" => some ⟨[(0x30, 0x39), (0x41, 0x5a), (0x5f, 0x5f), (0x61, 0x7a)]⟩
  | "xdigit" => some ⟨[(0x30, 0x39), (0x41, 0x46), (0x61, 0x66)]⟩
  | _ => Option.none

end CharSet

end OrderedStore.Pattern
