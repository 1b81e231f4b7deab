import OrderedStore.ScoredSet.Basic

/-!
# Ranges of a scored set

Members can be listed by the beginning of their name or by score, from either end, a page at a time. A
range of scores is found once among the buckets and then walked along the chain, across buckets, until
a score leaves the range.
-/

namespace OrderedStore

/-- What part of a range is wanted, and how. -/
structure RangeQuery where
  /-- Members to pass over first. -/
  offset : Nat := 0
  /-- Members to list; all if absent. -/
  count : Option Nat := none
  /-- Whether to list scores. -/
  withScores : Bool := false
  /-- Whether to start at the high end. -/
  reverse : Bool := false

/-- A member as a range lists it. -/
structure RangeRow (V : Type) where
  member : Bytes
  score : Option Binary64
  payload : V
  deriving DecidableEq, Repr

namespace ScoredSet

variable {V : Type}

/-- A leaf as a range lists it. -/
def entry (opts : RangeQuery) (leaf : Leaf (Scored V)) : RangeRow V :=
  ⟨leaf.key, if opts.withScores then some leaf.value.score else none, leaf.value.payload⟩

/-- How far a walk has to be followed for a page: no chain without a circle is longer than the walk's
own bound, and in a circle a page takes what it passes over and what it lists. -/
def pageSteps (opts : RangeQuery) (w : Walk (Scored V)) : Nat := w.fuel + opts.offset + opts.count.getD 0

/-- The wanted part of what was met. -/
def page (opts : RangeQuery) (t : Trace (Leaf (Scored V))) : Except Fault (List (RangeRow V)) :=
  let rest := t.drop opts.offset
  let part := match opts.count with
    | some n => rest.take n
    | none => rest
  (part.map (entry opts)).toList

/-- The members that start with the given bytes, in member order. -/
def rangeUnder (z : ScoredSet V) (start : Bytes) (opts : RangeQuery) :
    Except Fault (List (RangeRow V)) :=
  let w := z.byMember.walkUnder start
  let w := if opts.reverse then w.reverse else w
  page opts (w.trace (pageSteps opts w))

/-- The members with a score between two bounds, in order of score and member. -/
def rangeBetween (z : ScoredSet V) (min max : ScoreBound) (opts : RangeQuery) :
    Except Fault (List (RangeRow V)) := do
  let some (first, last) ← z.ends? | return []
  if min.isNaN || max.isNaN || max.score.below min.score then return []
  let low (leaf : Leaf (Scored V)) : Bool := min.admitsAbove leaf.value.score
  let high (leaf : Leaf (Scored V)) : Bool := max.admitsBelow leaf.value.score
  if opts.reverse then
    let key ← ScoreKey.ofScore max.score
    let some (bucket, _) ← (z.buckets.walkDownFrom key.toBytes).next | return []
    let w := (z.walkBetween first bucket.value.last).reverse
    page opts (((w.trace (pageSteps opts w)).dropWhile (!high ·)).takeWhile low)
  else
    let key ← ScoreKey.ofScore min.score
    let some (bucket, _) ← (z.buckets.walkFrom key.toBytes).next | return []
    let w := z.walkBetween bucket.value.first last
    page opts (((w.trace (pageSteps opts w)).dropWhile (!low ·)).takeWhile high)

end ScoredSet

end OrderedStore
