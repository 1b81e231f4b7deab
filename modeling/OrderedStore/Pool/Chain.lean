import OrderedStore.Pool.Basic

/-!
# Chains

The leaves of a pool are linked into chains, each leaf naming the one before and the one after it.
Relinking touches only the leaves on either side of a change, so several chains can live in one pool
and be spliced into one another.
-/

namespace OrderedStore.Pool

variable {V : Type}

/-- Make `b` follow `a`. Either may be the end of a chain. -/
def connect (p : Pool V) (a b : Link) : Edit (Pool V) := do
  let p ← if a.isSome then p.modify a ({ · with next := b }) else pure p
  if b.isSome then p.modify b ({ · with prev := a }) else pure p

/-- Splice the unlinked leaf `id` in directly after `pred`. -/
def spliceAfter (p : Pool V) (pred id : Link) : Edit (Pool V) := do
  let succ ← p.nextOf pred
  let p ← p.connect pred id
  p.connect id succ

/-- Splice the unlinked leaf `id` in directly before `succ`. -/
def spliceBefore (p : Pool V) (succ id : Link) : Edit (Pool V) := do
  let pred ← p.prevOf succ
  let p ← p.connect pred id
  p.connect id succ

/-- Take a leaf out of its chain and close the gap. -/
def unlink (p : Pool V) (id : Link) : Edit (Pool V) := do
  let leaf ← p.get id
  let p ← p.connect leaf.prev leaf.next
  p.modify id ({ · with prev := none, next := none })

/-- Free the leaves from `current` along the chain up to `last`, and count them. Each step frees a live
leaf, so `steps` beyond the number of live leaves are never needed. -/
def vacateThrough (last : Link) : (steps : Nat) → Pool V → (current : Link) → Edit (Nat × Pool V)
  | 0, _, _ => throw .endless
  | steps + 1, p, current => do
    let next ← p.nextOf current
    let (_, p) ← p.vacate current
    if current = last then return (1, p)
    if next = none then throw .runCutShort
    let (count, p) ← vacateThrough last steps p next
    return (count + 1, p)

/-- Free the run of leaves from `first` to `last`, join what was on either side of it, and answer how
many leaves it had. -/
def vacateRun (p : Pool V) (first last : Link) : Edit (Nat × Pool V) := do
  let before ← p.prevOf first
  let after ← p.nextOf last
  let (count, p) ← vacateThrough last (p.live + 1) p first
  let p ← p.connect before after
  return (count, p)

end OrderedStore.Pool
