import OrderedStore.Pattern.Expr

/-!
# Matching

A pattern matches a byte string if some stretch of it fits. The bytes are read as text: a set of
characters fits one whole character, and nothing fits a byte that belongs to no character.

Matching follows all ways to fit at once. A set of places is where the ways so far have got to; each
part of a pattern takes the places where it may start to the places where it may end. Such a set is a
number whose bit `i` stands for the place in front of byte `i`.
-/

namespace OrderedStore.Pattern

/-- A place between two bytes of a byte string. -/
structure Place where
  /-- The bytes on the left, nearest first. -/
  before : Bytes
  after : Bytes
  /-- The character on the right, if the bytes there begin with one, and how many of them it takes. -/
  next? : Option (Char × Nat)

namespace Place

/-- All places of a byte string, from left to right. -/
def all (before : Bytes) : Bytes → List Place
  | [] => [⟨before, [], none⟩]
  | b :: s =>
    let next? := (Utf8.uncons? (b :: s)).map fun (c, _) => (c, Utf8.size c.toNat)
    ⟨before, b :: s, next?⟩ :: all (b :: before) s

/-- The character on the left: the one that begins at the last byte there that can begin one, or four bytes
back at most. What lies between it and the place goes unread. -/
def prior? (p : Place) : Option Char :=
  let further := (p.before.take 3).takeWhile fun b => 0x80 ≤ b && b < 0xc0
  (Utf8.uncons? (p.before.take (further.length + 1)).reverse).map (·.1)

/-- Whether there is text on the left that shows no character. -/
def brokenBefore (p : Place) : Bool := !p.before.isEmpty && p.prior?.isNone

/-- Whether there is text on the right that begins with no character. -/
def brokenAfter (p : Place) : Bool := !p.after.isEmpty && p.next?.isNone

/-- Whether something holds here. Where there is text but no character, no half of a boundary holds. -/
def satisfies (p : Place) (a : Anchor) : Bool :=
  let word := p.prior?.any WordChar.isWord
  let next := p.next?.any fun (c, _) => WordChar.isWord c
  match a with
  | .textStart => p.before.isEmpty
  | .textEnd => p.after.isEmpty
  | .lineStart => p.before.isEmpty || p.before.head? == some 0x0a
  | .lineEnd => p.after.isEmpty || p.after.head? == some 0x0a
  | .wordBoundary => word != next
  | .notWordBoundary => !p.brokenBefore && !p.brokenAfter && word == next
  | .wordStart => !word && next
  | .wordEnd => word && !next
  | .wordStartHalf => !p.brokenBefore && !word
  | .wordEndHalf => !p.brokenAfter && !next

/-- The number with the first `2 ^ depth` bits of a list, lowest first, and the bits after them. Halves are
put together, so that a long list takes few steps with large numbers. -/
def pack : (depth : Nat) → List Bool → Nat × List Bool
  | _, [] => (0, [])
  | 0, b :: bits => (b.toNat, bits)
  | depth + 1, bits =>
    let (low, bits) := pack depth bits
    let (high, bits) := pack depth bits
    (low ||| (high <<< (1 <<< depth)), bits)

/-- The set of those places of a byte string where a test holds. -/
def mark (places : List Place) (test : Place → Bool) : Nat :=
  (pack (places.length.log2 + 1) (places.map test)).1

end Place

/-- How a pattern leads from places of one byte string to places. -/
inductive Course
  /-- From each place of a set, the same number of bytes ahead. Several sets may lead ahead. -/
  | ahead (ways : List (Nat × Nat))
  /-- Only on from the places of a set. -/
  | through (gates : Nat)
  | seq (cs : List Course)
  | alt (cs : List Course)
  /-- At least so many times, and at most so many times more. -/
  | times (least more : Nat) (c : Course)

namespace Course

/-- Repeat a step so many times, as long as there is a place to start from. -/
def iterate (step : Nat → Nat) : (steps : Nat) → Nat → Nat
  | 0, places => places
  | steps + 1, places => if places = 0 then 0 else iterate step steps (step places)

/-- All places that can be reached from the frontier in at most so many steps, with those known already. -/
def reach (step : Nat → Nat) : (steps : Nat) → (known frontier : Nat) → Nat
  | 0, known, _ => known
  | steps + 1, known, frontier =>
    if frontier = 0 then known
    else
      let found := known ||| step frontier
      reach step steps found (found ^^^ known)

mutual

/-- The places that a course leads to. -/
def follow : Course → Nat → Nat
  | ahead ways, places =>
    ways.foldl (fun found (start, size) => found ||| ((places &&& start) <<< size)) 0
  | through gates, places => places &&& gates
  | seq cs, places => followAll cs places
  | alt cs, places => followAny cs places
  | times least more c, places =>
    let start := iterate c.follow least places
    reach c.follow more start start

/-- The places that courses lead to one after the other. -/
def followAll : List Course → Nat → Nat
  | [], places => places
  | c :: cs, places => followAll cs (c.follow places)

/-- The places that any of the courses leads to. -/
def followAny : List Course → Nat → Nat
  | [], _ => 0
  | c :: cs, places => c.follow places ||| followAny cs places

end

end Course

namespace Expr

mutual

/-- The course of a pattern on a byte string of `size` bytes. A way only leads ahead, so one that repeats a
part more than `size` times has repeated it in place; more repetitions neither open nor close a way. -/
def course (size : Nat) (places : List Place) : Expr → Course
  | empty => .seq []
  | text s => .ahead [(Place.mark places (s.isPrefixOf ·.after), s.length)]
  | set s =>
    .ahead (s.widths.map fun n =>
      (Place.mark places fun p => p.next?.any fun (c, width) => width == n && s.has c.toNat, n))
  | anchor a => .through (Place.mark places (·.satisfies a))
  | times _ least most e =>
    let more := match most with
      | some n => min (n - least) (size + 1)
      | none => size + 1
    .times (min least (size + 1)) more (e.course size places)
  | group _ e => e.course size places
  | seq es => .seq (courses size places es)
  | alt es => .alt (courses size places es)

/-- The course of each pattern of a list. -/
def courses (size : Nat) (places : List Place) : List Expr → List Course
  | [] => []
  | e :: es => e.course size places :: courses size places es

end

/-- Whether a pattern fits some stretch of a byte string. -/
def fits (e : Expr) (s : Bytes) : Bool :=
  let places := Place.all [] s
  (e.course s.length places).follow ((1 <<< places.length) - 1) != 0

end Expr

end OrderedStore.Pattern
