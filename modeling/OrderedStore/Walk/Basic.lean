import OrderedStore.Pool.Basic
import OrderedStore.Walk.Trace

/-!
# Walks

A walk runs along a chain between two leaves and can be taken from either end: each step takes the leaf
at one end and moves that end inwards, until the ends have met. The ends matter when several tries share
one chain, for the walk stops at its last leaf instead of running on into a neighbour.

A walk may be restricted to the keys that pass a test. Leaves that fail it are stepped over, and since
a chain can only hold as many leaves as the tower of the pool has room for, a search that steps over more
than that is going in a circle.
-/

namespace OrderedStore

/-- The stretch of a chain that is still to be walked. -/
structure Span where
  front : Link
  back : Link
  /-- Whether any leaf is left. -/
  going : Bool
  deriving DecidableEq, Repr

namespace Span

variable {V : Type}

/-- The stretch between two leaves, both included; nothing if either is missing. -/
def between (front back : Link) : Span := ⟨front, back, front.isSome && back.isSome⟩

/-- Nothing to walk. -/
def nothing : Span := ⟨none, none, false⟩

/-- Take the leaf at the front. -/
def next (leaves : Pool V) (s : Span) : Except Fault (Option (Leaf V × Span)) := do
  if !s.going then return none
  let leaf ← leaves.get s.front
  if s.front = s.back then return some (leaf, { s with going := false })
  return some (leaf, { s with front := leaf.next, going := leaf.next.isSome })

/-- Take the leaf at the back. -/
def nextBack (leaves : Pool V) (s : Span) : Except Fault (Option (Leaf V × Span)) := do
  if !s.going then return none
  let leaf ← leaves.get s.back
  if s.front = s.back then return some (leaf, { s with going := false })
  return some (leaf, { s with back := leaf.prev, going := leaf.prev.isSome })

end Span

/-- A walk over the leaves of a pool. -/
structure Walk (V : Type) where
  leaves : Pool V
  span : Span
  /-- Whether the walk goes towards smaller keys. -/
  descending : Bool := false
  /-- Which keys the walk keeps. -/
  keeps : Bytes → Bool := fun _ => true

namespace Walk

variable {V : Type}

/-- The leaf at one end of the span, kept or not. -/
def step (w : Walk V) (fromBack : Bool) : Except Fault (Option (Leaf V × Walk V)) := do
  let met ← if fromBack then w.span.nextBack w.leaves else w.span.next w.leaves
  return met.map fun (leaf, span) => (leaf, { w with span })

/-- The first kept leaf from one end, looking at no more than `fuel` leaves. -/
def seek (fromBack : Bool) : (fuel : Nat) → Walk V → Except Fault (Option (Leaf V × Walk V))
  | 0, _ => .error .endless
  | fuel + 1, w => do
    match ← w.step fromBack with
    | none => return none
    | some (leaf, w) => if w.keeps leaf.key then return some (leaf, w) else seek fromBack fuel w

/-- One look more than there can be leaves: a walk that needs it is going in a circle. -/
def fuel (w : Walk V) : Nat := w.leaves.capacity + 1

/-- The next leaf of the walk, with the walk after it. -/
def next (w : Walk V) : Except Fault (Option (Leaf V × Walk V)) := w.seek w.descending w.fuel

/-- The next leaf from the far end of the walk, with the walk before it. -/
def nextBack (w : Walk V) : Except Fault (Option (Leaf V × Walk V)) := w.seek (!w.descending) w.fuel

/-- The same walk from its other end. -/
def reverse (w : Walk V) : Walk V := { w with descending := !w.descending }

/-- What the walk meets in its first `steps` steps. -/
def trace : (steps : Nat) → Walk V → Trace (Leaf V)
  | 0, _ => .fault .endless
  | steps + 1, w =>
    match w.next with
    | .error f => .fault f
    | .ok none => .done
    | .ok (some (leaf, w)) => .item leaf (trace steps w)

/-- Every leaf of the walk. -/
def toList (w : Walk V) : Except Fault (List (Leaf V)) := (w.trace w.fuel).toList

/-- Work on every leaf of the walk as it is met. -/
def mapM {α : Type} (f : Leaf V → Except Fault α) (w : Walk V) : Except Fault (List α) :=
  (w.trace w.fuel).mapM f

end Walk

end OrderedStore
