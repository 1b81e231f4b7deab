import OrderedStore.Text.Utf8

/-!
# Ranges of characters as bytes

The characters of a range, written as bytes, are the byte strings of a few rows: a row gives a range of
bytes for each position, and takes every choice of a byte from each. Ranges are cut where the number of
bytes changes, at the numbers that are no characters, and so that within a row the positions do not depend
on one another.
-/

namespace OrderedStore.EncodedRange

/-- A range of bytes for each position. -/
abbrev Row := List (UInt8 × UInt8)

/-- The stretches of numbers that are characters with equally many bytes. -/
def stretches : List (Nat × Nat) :=
  [(0, 0x7f), (0x80, 0x7ff), (0x800, 0xd7ff), (0xe000, 0xffff), (0x10000, 0x10ffff)]

/-- Cut a range so that in each piece the last position, then the last two, and so on, take either one
value or all. `sizes` says how many characters share all positions before the last, the last two and so
on. -/
def cut : (sizes : List Nat) → (low high : Nat) → List (Nat × Nat)
  | [], low, high => [(low, high)]
  | size :: sizes, low, high =>
    if low / size = high / size then [(low, high)]
    else
      let (head, low) :=
        if low % size = 0 then ([], low)
        else
          let next := (low / size + 1) * size
          ([(low, next - 1)], next)
      let (tail, next) :=
        if (high + 1) % size = 0 then ([], high + 1)
        else
          let next := high / size * size
          ([(next, high)], next)
      head ++ (if low < next then cut sizes low (next - 1) else []) ++ tail

/-- The rows of the characters from the first number to the last. -/
def rows (low high : Nat) : List Row :=
  stretches.flatMap fun (first, last) =>
    let low := max low first
    let high := min high last
    if high < low then []
    else if high < 0x80 then [[(low.toUInt8, high.toUInt8)]]
    else (cut [0x40, 0x1000, 0x40000] low high).map fun (low, high) =>
      (Utf8.encodeNumber low).zip (Utf8.encodeNumber high)

end OrderedStore.EncodedRange
