import OrderedStore.Pattern.Expr
import OrderedStore.Pattern.TextTree
import OrderedStore.Text.EncodedRange

/-!
# The room that a pattern takes

A pattern is only taken if its automata are not too large: one that reads the bytes forwards and takes down
where groups begin and end, and one that reads them backwards. Repetitions are written out, so a short
pattern may take a lot of room. The room is counted in bytes: each state takes the same, and on top of it
a fork takes room for each state that it leads to and a switch for each range of bytes that it tells apart.
-/

namespace OrderedStore.Pattern

namespace Room

/-- What every state takes. -/
def state : Nat := 32

/-- What a fork takes for each state that it leads to. -/
def link : Nat := 4

/-- What a switch takes for each range of bytes. -/
def edge : Nat := 8

/-- The most that one automaton may take. -/
def limit : Nat := 10 * 0x100000

/-- The room of a part of an automaton. -/
structure Part where
  bytes : Nat
  /-- Whether the part ends in a fork, which takes a link for what comes next. -/
  forked : Bool := false

namespace Part

/-- What a part takes once something comes next. -/
def linked (p : Part) : Nat := p.bytes + (if p.forked then link else 0)

/-- One part and then another. -/
def andThen (p q : Part) : Part := ⟨p.linked + q.bytes, q.forked⟩

/-- Parts in a row; an empty row is one state. -/
def row : List Part → Part
  | [] => ⟨state, false⟩
  | p :: ps => ps.foldl andThen p

/-- Parts to choose from: a fork leads to each, and all lead to one state. -/
def choice (ps : List Part) : Part := ⟨2 * state + (ps.map fun p => link + p.linked).foldr (· + ·) 0, false⟩

/-- A part a number of times. A part without a fit of no bytes needs one fork for any number of times. -/
def times (p : Part) (wide : Bool) : (least : Nat) → (most : Option Nat) → Part
  | 0, some 1 => ⟨2 * state + 2 * link + p.linked, false⟩
  | 0, none => if wide then ⟨state + link + p.linked, true⟩ else ⟨3 * state + 4 * link + p.linked, false⟩
  | least + 1, none => ⟨(least + 1) * p.linked + state + link, true⟩
  | least, some most =>
    if least = most then ⟨(most - 1) * p.linked + p.bytes, p.forked⟩
    else
      let start := if least = 0 then state else 0
      ⟨start + state + most * p.linked + (most - least) * (state + 2 * link), false⟩

/-- A part with the states that take down where it begins and ends. -/
def noted (p : Part) : Part := ⟨2 * state + p.linked, false⟩

end Part

/-! ## Choices of texts -/

mutual

/-- The room of a point of a tree of texts: a switch for each chunk of edges and a fork to choose between
them and the ends of texts. A point that leads nowhere takes none. -/
def point : TextTree → Nat
  | .point done now =>
    if now.isEmpty && done.all List.isEmpty then 0
    else state + link * done.length + chunk now + chunks done

/-- The room of the chunks of a point. -/
def chunks : List (List (UInt8 × TextTree)) → Nat
  | [] => 0
  | c :: cs => chunk c + chunks cs

/-- The room of a chunk: a single edge is no switch. -/
def chunk : List (UInt8 × TextTree) → Nat
  | [] => 0
  | [(_, t)] => link + state + point t
  | (_, t) :: edges => link + state + edge * (edges.length + 1) + point t + points edges

/-- The room of what the edges of a chunk lead to. -/
def points : List (UInt8 × TextTree) → Nat
  | [] => 0
  | (_, t) :: edges => point t + points edges

end

/-- The room of a choice of texts. -/
def texts (ts : List Bytes) : Part := ⟨state + point (.ofTexts ts), false⟩

/-! ## Sets of characters -/

/-- The rows of bytes of a set. -/
def rows (s : CharSet) : List EncodedRange.Row :=
  s.ranges.flatMap fun (low, high) => EncodedRange.rows low high

/-- Whether a set holds seven-bit characters only. -/
def isSevenBit (s : CharSet) : Bool := s.ranges.all fun (_, high) => high < 0x80

/-- Rows in groups that begin alike, each with how its rows go on. -/
def groups : List EncodedRange.Row → List ((UInt8 × UInt8) × List EncodedRange.Row)
  | [] => []
  | [] :: rows => groups rows
  | (first :: row) :: rows =>
    match groups rows with
    | (first', rest) :: others =>
      if first = first' then (first, row :: rest) :: others else (first, [row]) :: (first', rest) :: others
    | [] => [(first, [row])]

/-- How rows may go on after what some of them begin with, for all such beginnings. -/
def continuations : (depth : Nat) → List EncodedRange.Row → List (List EncodedRange.Row)
  | 0, _ => []
  | depth + 1, rows =>
    rows :: (groups rows).flatMap fun (_, rest) =>
      if rest.all List.isEmpty then [] else continuations depth rest

/-- Forwards, beginnings of rows after which the same may follow lead to one switch. -/
def setForward (s : CharSet) : Nat :=
  if isSevenBit s then 2 * state + edge * s.ranges.length
  else
    let continued := (continuations 4 (rows s)).eraseDups
    state + (continued.map fun rows => state + edge * (groups rows).length).foldr (· + ·) 0

/-- How many ranges two rows begin with alike. -/
def common : EncodedRange.Row → EncodedRange.Row → Nat
  | a :: row, b :: row' => if a = b then common row row' + 1 else 0
  | _, _ => 0

/-- Backwards, a fork leads to each row, and rows share what they begin with. -/
def setBackward (s : CharSet) : Nat :=
  if isSevenBit s then 2 * state + edge * s.ranges.length
  else
    let rows := rows s
    let shared := (rows.zipWith common ([] :: rows)).foldr (· + ·) 0
    2 * state + link * rows.length + state * ((rows.map List.length).foldr (· + ·) 0 - shared)

/-! ## Whole automata -/

/-- What differs from one automaton to the other. -/
structure Layout where
  backward : Bool
  set : CharSet → Nat

mutual

/-- The room of a pattern within an automaton. -/
def part (l : Layout) : Expr → Part
  | .empty | .anchor _ => ⟨state, false⟩
  | .text s => ⟨state * s.length, false⟩
  | .set s => ⟨l.set s, false⟩
  | .times _ least most e => (part l e).times (e.extent.shortest.any (0 < ·)) least most
  | .group _ e => if l.backward then part l e else (part l e).noted
  | .seq es => .row (if l.backward then (parts l es).reverse else parts l es)
  | .alt es =>
    match es.mapM fun | .text s => some s | _ => none with
    | some ts => texts (if l.backward then ts.map List.reverse else ts)
    | none => .choice (parts l es)

/-- The room of each pattern of a list. -/
def parts (l : Layout) : List Expr → List Part
  | [] => []
  | e :: es => part l e :: parts l es

end

/-- The room of an automaton: a way to begin at any byte, unless there is but one place to begin, the pattern
as a group, and a state for having matched. -/
def whole (l : Layout) (e : Expr) : Nat :=
  let fixed := if l.backward then e.ends .textEnd else e.begins .textStart
  let lead := if fixed then state else 3 * state + edge + 2 * link
  lead + (part l (.group 0 e)).linked + state

end Room

namespace Expr

/-- Whether neither automaton of a pattern takes too much room. Sets take no more room forwards than
backwards, which spares the closer count of most patterns. -/
def isSmall (e : Expr) : Bool :=
  Room.whole ⟨true, Room.setBackward⟩ e ≤ Room.limit &&
    (Room.whole ⟨false, Room.setBackward⟩ e ≤ Room.limit ||
      Room.whole ⟨false, Room.setForward⟩ e ≤ Room.limit)

end Expr

end OrderedStore.Pattern
