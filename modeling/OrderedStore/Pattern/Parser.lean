import OrderedStore.Pattern.Match
import OrderedStore.Pattern.Room
import OrderedStore.Pattern.Token

/-!
# Reading patterns

The tokens of a pattern are put together from left to right. An open group keeps what stood before it
and the flags that hold outside; flags set inside a group end with it. A repetition mark takes the part
right before it and is refused where there is none. A pattern is refused as well if it nests too deep or
takes too much room.

Reads of maps and stores take any reader of patterns; this is the one that programs give them. It knows no
classes by Unicode property and no flags but those below, and takes a text with one for no pattern.
-/

namespace OrderedStore.Pattern

/-- The flags in force. -/
structure Flags where
  ignoreCase : Bool := false
  multiLine : Bool := false
  dotAll : Bool := false
  swapGreed : Bool := false

/-- Turn one flag on or off. -/
def Flags.set (f : Flags) : Flag × Bool → Flags
  | (.ignoreCase, on) => { f with ignoreCase := on }
  | (.multiLine, on) => { f with multiLine := on }
  | (.dotAll, on) => { f with dotAll := on }
  | (.swapGreed, on) => { f with swapGreed := on }
  | (.unicode, _) => f

/-- A part of a pattern as it is written. -/
structure Part where
  expr : Expr
  /-- How deep the part nests. Rows, choices, groups, repetitions and bracketed sets count. -/
  height : Nat := 0
  /-- Whether a repetition mark may follow. None may where flags were set. -/
  repeatable : Bool := true

namespace Part

/-- The deepest a pattern may nest. -/
def heightLimit : Nat := 250

/-- Parts joined one level up. A part that stands alone is left as it is. -/
def join (expr : List Expr → Expr) : List Part → Part
  | [p] => p
  | ps => { expr := expr (ps.map expr'), height := if ps.isEmpty then 0 else tallest ps + 1 }
where
  expr' (p : Part) : Expr := p.expr
  tallest (ps : List Part) : Nat := (ps.map height).foldl max 0

end Part

/-- A group that is being read. -/
structure Group where
  /-- The group's number, if it is counted. -/
  number : Option Nat := none
  /-- The flags that hold once the group is closed. -/
  outside : Flags := {}
  /-- The branches before the current one, last first. -/
  branches : List Part := []
  /-- The parts of the current branch, last first. -/
  parts : List Part := []

namespace Group

/-- The current branch. -/
def branch (g : Group) : Part := .join .row g.parts.reverse

/-- What stands in the group. -/
def inner (g : Group) : Part := .join .choice (g.branch :: g.branches).reverse

/-- The group as a part. -/
def part (g : Group) : Part where
  expr := match g.number with
    | some n => .group n g.inner.expr
    | none => g.inner.expr
  height := g.inner.height + 1

end Group

/-- Reading in progress. -/
structure Reading where
  flags : Flags := {}
  /-- The innermost open group. -/
  group : Group := {}
  /-- The groups around it, innermost first. -/
  around : List Group := []
  /-- How many groups have been counted. -/
  counted : Nat := 0
  /-- The names given to groups. -/
  names : List (List Char) := []

namespace Reading

/-- Put a part behind those of the current branch. -/
def add? (r : Reading) (p : Part) : Option Reading :=
  if p.height ≤ Part.heightLimit then
    some { r with group := { r.group with parts := p :: r.group.parts } }
  else none

/-- Open a group, with the flags that hold in it. -/
def openGroup (r : Reading) (number : Option Nat) (flags : Flags) : Reading :=
  { r with flags, group := { number, outside := r.flags }, around := r.group :: r.around }

/-- Take in one token. -/
def take? (r : Reading) : Token → Option Reading
  | .char c =>
    let s := CharSet.char c
    r.add? { expr := .ofSet (if r.flags.ignoreCase then s.anyCase else s) }
  | .set s => r.add? { expr := .ofSet (s.value r.flags.ignoreCase), height := s.height }
  | .dot => r.add? { expr := .ofSet (if r.flags.dotAll then CharSet.none else CharSet.char '\n').outside }
  | .caret => r.add? { expr := .anchor (if r.flags.multiLine then .lineStart else .textStart) }
  | .dollar => r.add? { expr := .anchor (if r.flags.multiLine then .lineEnd else .textEnd) }
  | .anchor a => r.add? { expr := .anchor a }
  | .groupOpen (.counted name) =>
    if name.any (r.names.contains ·) then none
    else
      let counted := r.counted + 1
      some (openGroup { r with counted, names := name.toList ++ r.names } (some counted) r.flags)
  | .groupOpen (.plain changes) => some (r.openGroup none (changes.foldl Flags.set r.flags))
  | .flags changes =>
    { r with flags := changes.foldl Flags.set r.flags }.add? { expr := .empty, repeatable := false }
  | .groupClose =>
    match r.around with
    | [] => none
    | g :: around => { r with flags := r.group.outside, group := g, around }.add? r.group.part
  | .bar =>
    some { r with group := { r.group with branches := r.group.branch :: r.group.branches, parts := [] } }
  | .times least most marked =>
    match r.group.parts with
    | p :: parts =>
      if p.repeatable then
        { r with group := { r.group with parts } }.add?
          { expr := .repeated (marked != r.flags.swapGreed) least most p.expr, height := p.height + 1 }
      else none
    | [] => none

end Reading

/-- The pattern that a text stands for. -/
def Expr.read? (text : String) : Option Expr := do
  let s := text.toList
  let tokens ← Token.all? s.length s
  let r ← tokens.foldlM Reading.take? {}
  let p := r.group.inner
  if r.around.isEmpty && p.height ≤ Part.heightLimit && p.expr.isSmall then some p.expr else none

/-- The test that a text stands for as a pattern: whether the pattern fits some stretch of a byte string. -/
def test? (text : String) : Option (Bytes → Bool) := (Expr.read? text).map Expr.fits

end OrderedStore.Pattern
