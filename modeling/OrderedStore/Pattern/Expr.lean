import OrderedStore.Pattern.Anchor
import OrderedStore.Pattern.CharSet
import OrderedStore.Text.Utf8

/-!
# Patterns

A pattern in its plain form: text that stands side by side is one text, a row holds no rows and a choice
no choices, single characters to choose from are one set, and what all branches of a choice begin with
stands in front of it. The functions that build patterns see to this form.
-/

namespace OrderedStore.Pattern

/-- A pattern. -/
inductive Expr
  | empty
  /-- These bytes, one after the other. -/
  | text (s : Bytes)
  /-- One character of a set. -/
  | set (s : CharSet)
  | anchor (a : Anchor)
  /-- At least so many times, and at most so many if a most is given. A lazy repetition tries to stop
  first, which does not change what it fits. -/
  | times (isLazy : Bool) (least : Nat) (most : Option Nat) (e : Expr)
  /-- A group that is counted, with its number. -/
  | group (number : Nat) (e : Expr)
  | seq (es : List Expr)
  | alt (es : List Expr)

/-- How many bytes the fits of a pattern take: no shortest where a part fits nothing at all, and no longest
where there is no end to them either. -/
structure Extent where
  shortest : Option Nat
  longest : Option Nat

namespace Extent

/-- The extent of parts in a row. -/
def sum (xs : List Extent) : Extent where
  shortest := (xs.mapM shortest).map (·.foldr (· + ·) 0)
  longest := (xs.mapM longest).map (·.foldr (· + ·) 0)

/-- The extent of branches to choose from. -/
def choice (xs : List Extent) : Extent where
  shortest := (xs.mapM shortest).bind List.min?
  longest := (xs.mapM longest).bind List.max?

end Extent

namespace Expr

mutual

/-- Whether two patterns are the same. -/
def same : Expr → Expr → Bool
  | empty, empty => true
  | text s, text t => s == t
  | set s, set t => s == t
  | anchor a, anchor b => a == b
  | times isLazy least most e, times isLazy' least' most' e' =>
    isLazy == isLazy' && least == least' && most == most' && same e e'
  | group n e, group n' e' => n == n' && same e e'
  | seq es, seq es' => sameAll es es'
  | alt es, alt es' => sameAll es es'
  | _, _ => false

/-- Whether two lists hold the same patterns in the same order. -/
def sameAll : List Expr → List Expr → Bool
  | [], [] => true
  | e :: es, e' :: es' => same e e' && sameAll es es'
  | _, _ => false

end

mutual

/-- How many bytes a fit of the pattern may take. -/
def extent : Expr → Extent
  | empty | anchor _ => ⟨some 0, some 0⟩
  | text s => ⟨some s.length, some s.length⟩
  | set s =>
    ⟨s.ranges.head?.map fun (low, _) => Utf8.size low, s.ranges.getLast?.map fun (_, high) => Utf8.size high⟩
  | times _ least most e =>
    let x := e.extent
    ⟨x.shortest.map (least * ·), do return (← most) * (← x.longest)⟩
  | group _ e => e.extent
  | seq es => .sum (extents es)
  | alt es => .choice (extents es)

/-- The extent of each pattern of a list. -/
def extents : List Expr → List Extent
  | [] => []
  | e :: es => e.extent :: extents es

end

/-- Whether a pattern fits nothing but empty stretches. -/
def isNarrow (e : Expr) : Bool := e.extent.longest == some 0

mutual

/-- Whether every fit begins where an anchor holds. -/
def begins (a : Anchor) : Expr → Bool
  | anchor b => a == b
  | times _ least _ e => 0 < least && e.begins a
  | group _ e => e.begins a
  | seq es => seqBegins a es
  | alt es => allBegin a es
  | _ => false

/-- Whether every fit of a row begins where an anchor holds: some part asks for it before any byte. -/
def seqBegins (a : Anchor) : List Expr → Bool
  | [] => false
  | e :: es => e.begins a || (e.isNarrow && seqBegins a es)

/-- Whether every fit of any of the patterns begins where an anchor holds. -/
def allBegin (a : Anchor) : List Expr → Bool
  | [] => true
  | e :: es => e.begins a && allBegin a es

end

mutual

/-- Whether every fit ends where an anchor holds. -/
def ends (a : Anchor) : Expr → Bool
  | anchor b => a == b
  | times _ least _ e => 0 < least && e.ends a
  | group _ e => e.ends a
  | seq es => (seqEnds a es).2
  | alt es => allEnd a es
  | _ => false

/-- Whether all of a row is narrow, and whether every fit of it ends where an anchor holds. -/
def seqEnds (a : Anchor) : List Expr → Bool × Bool
  | [] => (true, false)
  | e :: es =>
    let (narrow, found) := seqEnds a es
    (narrow && e.isNarrow, found || (narrow && e.ends a))

/-- Whether every fit of any of the patterns ends where an anchor holds. -/
def allEnd (a : Anchor) : List Expr → Bool
  | [] => true
  | e :: es => e.ends a && allEnd a es

end

/-! ## Building patterns -/

/-- One character of a set; a set of one character is that character. -/
def ofSet (s : CharSet) : Expr :=
  match s.ranges with
  | [(low, high)] => if low = high then text (Utf8.encodeNumber low) else set s
  | _ => set s

/-- The parts of a pattern that stand in a row. -/
def parts : Expr → List Expr
  | empty => []
  | seq es => es
  | e => [e]

/-- Put a part in front of a row, text in front of text as one text. -/
def prepend : Expr → List Expr → List Expr
  | text s, text t :: es => text (s ++ t) :: es
  | e, es => e :: es

/-- Patterns in a row. -/
def row (es : List Expr) : Expr :=
  match (es.flatMap parts).foldr prepend [] with
  | [] => empty
  | [e] => e
  | es => seq es

/-- A pattern a number of times. What fits only empty stretches gains nothing by being repeated. -/
def repeated (isLazy : Bool) (least : Nat) (most : Option Nat) (e : Expr) : Expr :=
  let (least, most) := if e.isNarrow then (min least 1, some (min (most.getD 1) 1)) else (least, most)
  if most = some 0 then empty
  else if least = 1 ∧ most = some 1 then e
  else times isLazy least most e

/-- The branches of a pattern that are to choose from. -/
def branches : Expr → List Expr
  | alt es => es
  | e => [e]

/-- The characters that a pattern stands for, if it is a single character. -/
def char? : Expr → Option CharSet
  | text s =>
    match Utf8.uncons? s with
    | some (c, []) => some (.char c)
    | _ => none
  | _ => none

/-- The set of which a pattern is one character, if it is written as a set. -/
def set? : Expr → Option CharSet
  | set s => some s
  | _ => none

/-- The parts of a pattern that is a row. -/
def seq? : Expr → Option (List Expr)
  | seq es => some es
  | _ => none

/-- The parts that two rows begin with alike. -/
def commonStart : List Expr → List Expr → List Expr
  | e :: es, e' :: es' => if same e e' then e :: commonStart es es' else []
  | _, _ => []

/-- Branches to choose from. The rounds are for branches that begin alike: what is left of them is a choice
again, and shorter. -/
def choiceWithin : (fuel : Nat) → List Expr → Expr
  | fuel, es =>
    match es.flatMap branches with
    | [] => set .none
    | [e] => e
    | es =>
      match (es.mapM char?).orElse fun _ => es.mapM set? with
      | some sets => ofSet (.ofRanges (sets.flatMap (·.ranges)))
      | none =>
        match fuel, es.mapM seq? with
        | fuel + 1, some (first :: others) =>
          let start := others.foldl commonStart first
          if start.isEmpty then alt es
          else
            let rests := (first :: others).map fun parts => row (parts.drop start.length)
            row (start ++ [choiceWithin fuel rests])
        | _, _ => alt es

mutual

/-- How many patterns a pattern is made of. -/
def count : Expr → Nat
  | times _ _ _ e | group _ e => e.count + 1
  | seq es | alt es => countAll es + 1
  | _ => 1

/-- How many patterns the patterns of a list are made of. -/
def countAll : List Expr → Nat
  | [] => 0
  | e :: es => e.count + countAll es

end

/-- Branches to choose from. -/
def choice (es : List Expr) : Expr := choiceWithin (countAll es) es

end Expr

end OrderedStore.Pattern
