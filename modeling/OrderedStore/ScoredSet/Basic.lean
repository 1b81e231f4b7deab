import OrderedStore.OrderedMap.Basic
import OrderedStore.Score.Bound
import OrderedStore.Score.Key

/-!
# Scored sets

A scored set holds members, each with a score and a payload, and lists them by score and then by member.
Every member is kept twice: in a map by member, and in the bucket of its score, a trie of the members
that share it. The buckets are themselves values of an ordered map whose keys are the bytes of the score
keys, so the buckets are in score order.

All buckets keep their leaves in one pool, and the chains of neighbouring buckets are linked end to end.
Following the links from the first leaf of the lowest bucket visits every member in order without
looking at the buckets again. Whenever a bucket gains a first or last leaf, comes or goes, its ends are
linked anew to the buckets next to it.
-/

namespace OrderedStore

/-- A score and a payload. -/
structure Scored (V : Type) where
  score : Binary64
  payload : V
  deriving DecidableEq, Repr

/-- A set of members ordered by score. -/
structure ScoredSet (V : Type) where
  /-- Score and payload by member. -/
  byMember : OrderedMap (Scored V)
  /-- The bucket of each score in use, by the bytes of its score key. -/
  buckets : OrderedMap Trie
  /-- The leaves of all buckets. -/
  chain : Pool (Scored V) := {}

namespace ScoredSet

variable {V : Type}

/-- A set without members that refuses members longer than the limit. -/
def empty (V : Type) (memberLimit : Nat := OrderedMap.defaultKeyLimit) : Edit (ScoredSet V) := do
  let byMember := OrderedMap.empty (Scored V) (← Edit.fresh) memberLimit
  let buckets := OrderedMap.empty Trie (← Edit.fresh)
  return { byMember, buckets }

/-! ## Reading -/

/-- How many members there are. -/
def card (z : ScoredSet V) : Nat := z.byMember.size

def isEmpty (z : ScoredSet V) : Bool := z.byMember.isEmpty

/-- How many different scores there are. -/
def bucketCount (z : ScoredSet V) : Nat := z.buckets.size

/-- The score and payload of a member. -/
def get? (z : ScoredSet V) (member : Bytes) : Except Fault (Option (Scored V)) := z.byMember.get? member

/-- The score of a member. -/
def score? (z : ScoredSet V) (member : Bytes) : Except Fault (Option Binary64) :=
  return (← z.get? member).map Scored.score

/-- The first leaf of the lowest bucket and the last leaf of the highest. -/
def ends? (z : ScoredSet V) : Except Fault (Option (LeafId × LeafId)) := do
  let some lowest ← z.buckets.first? | return none
  let some first := lowest.value.first | return none
  let some highest ← z.buckets.last? | return none
  let some last := highest.value.last | return none
  return some (first, last)

/-- The members between two leaves, in order. -/
def walkBetween (z : ScoredSet V) (first last : Link) : Walk (Scored V) :=
  ⟨z.chain, .between first last, false, fun _ => true⟩

/-- All members in order. -/
def walk (z : ScoredSet V) : Except Fault (Walk (Scored V)) := do
  match ← z.ends? with
  | some (first, last) => return z.walkBetween first last
  | none => return z.walkBetween none none

/-- The member of the lowest score. -/
def first? (z : ScoredSet V) : Except Fault (Option (Leaf (Scored V))) :=
  return (← (← z.walk).next).map Prod.fst

/-- The member of the highest score. -/
def last? (z : ScoredSet V) : Except Fault (Option (Leaf (Scored V))) :=
  return (← (← z.walk).nextBack).map Prod.fst

/-! ## Buckets -/

/-- The last leaf of the nearest bucket below a score and the first leaf of the nearest one above. -/
def adjacentEnds (z : ScoredSet V) (key : ScoreKey) : Except Fault (Link × Link) := do
  let other (k : Bytes) : Bool := k != key.toBytes
  let below ← { z.buckets.walkDownFrom key.toBytes with keeps := other }.next
  let above ← { z.buckets.walkFrom key.toBytes with keeps := other }.next
  return (below.bind fun (leaf, _) => leaf.value.last, above.bind fun (leaf, _) => leaf.value.first)

/-- Link the ends of a bucket to the buckets next to it. -/
def linkEnds (z : ScoredSet V) (key : ScoreKey) : Edit (ScoredSet V) := do
  match ← z.buckets.get? key.toBytes with
  | none => throw (.noBucket key.score)
  | some bucket =>
    let (pred, succ) ← z.adjacentEnds key
    let chain ← z.chain.connect pred bucket.first
    let chain ← chain.connect bucket.last succ
    return { z with chain }

/-- Change the bucket of a score together with the pool its leaves are in. -/
def editBucket {α : Type} (z : ScoredSet V) (key : ScoreKey)
    (edit : Trie → Pool (Scored V) → Edit (α × Trie × Pool (Scored V))) : Edit (α × Trie × ScoredSet V) := do
  match ← z.buckets.get? key.toBytes with
  | none => throw (.noBucket key.score)
  | some bucket =>
    let (answer, bucket, chain) ← edit bucket z.chain
    let buckets := (← z.buckets.modify? key.toBytes fun _ => bucket).getD z.buckets
    return (answer, bucket, { z with buckets, chain })

/-- Put a member into the bucket of its score, which is made if it is not there yet. -/
def insertIntoBucket (z : ScoredSet V) (key : ScoreKey) (member : Bytes) (scored : Scored V) :
    Edit (ScoredSet V) := do
  let buckets ←
    if z.buckets.contains key.toBytes then pure z.buckets
    else do z.buckets.insertOrKeep key.toBytes (.empty (← Edit.fresh))
  let (_, _, z) ← editBucket { z with buckets } key fun bucket chain => bucket.insert chain member scored
  z.linkEnds key

/-- Take a member out of the bucket of its score. A bucket left empty is dropped. -/
def eraseFromBucket (z : ScoredSet V) (key : ScoreKey) (member : Bytes) : Edit (ScoredSet V) := do
  let (removed, bucket, z) ← z.editBucket key fun bucket chain => bucket.erase chain member
  if removed.isNone then throw .memberNotInBucket
  if bucket.isEmpty then
    let (_, buckets) ← z.buckets.erase key.toBytes
    let z := { z with buckets }
    let (pred, succ) ← z.adjacentEnds key
    return { z with chain := ← z.chain.connect pred succ }
  else z.linkEnds key

/-! ## Writing -/

/-- Add or update a member whose score and length are known to be good. Answers whether it is new. A
member that keeps its score gets its payload in place; one with another score moves between buckets. -/
def put (z : ScoredSet V) (score : Binary64) (member : Bytes) (payload : V) :
    Edit (Bool × ScoredSet V) := do
  let key ← ScoreKey.ofScore score
  let scored : Scored V := ⟨score, payload⟩
  let old ← (← z.byMember.get? member).mapM fun old => ScoreKey.ofScore old.score
  let z ← match old with
    | none => z.insertIntoBucket key member scored
    | some oldKey =>
      if oldKey = key then do
        let (_, _, z) ← z.editBucket key fun bucket chain => bucket.insert chain member scored
        pure z
      else do
        let z ← z.eraseFromBucket oldKey member
        z.insertIntoBucket key member scored
  let byMember ← z.byMember.insertOrKeep member scored
  return (old.isNone, { z with byMember })

/-- Refuses a score that is no number or a member that is too long; the score is looked at first. -/
def check (z : ScoredSet V) (score : Binary64) (member : Bytes) : Except InputError Unit := do
  let _ ← asScore score
  z.byMember.checkLength member

/-- Add or update one member. Answers whether it is new. -/
def insert (z : ScoredSet V) (score : Binary64) (member : Bytes) (payload : V) :
    Edit (Except InputError (Bool × ScoredSet V)) := do
  match z.check score member with
  | .error e => return .error e
  | .ok () => return .ok (← z.put score member payload)

/-- A member to add, with its score and payload. -/
abbrev Item (V : Type) := Binary64 × Bytes × V

/-- Add or update members that are known to be good, one after another. Answers how many are new. -/
def putAll (z : ScoredSet V) : List (Item V) → Edit (Nat × ScoredSet V)
  | [] => return (0, z)
  | (score, member, payload) :: items => do
    let (isNew, z) ← z.put score member payload
    let (count, z) ← z.putAll items
    return (count + (if isNew then 1 else 0), z)

/-- The first thing wrong with a batch. -/
def checkAll (z : ScoredSet V) (items : List (Item V)) : Except InputError Unit :=
  items.forM fun (score, member, _) => z.check score member

/-- Add or update a batch of members, all of them or none. Answers how many are new. -/
def insertAll (z : ScoredSet V) (items : List (Item V)) :
    Edit (Except InputError (Nat × ScoredSet V)) := do
  match z.checkAll items with
  | .error e => return .error e
  | .ok () => return .ok (← z.putAll items)

/-- Remove a member. Answers its score and payload. -/
def erase (z : ScoredSet V) (member : Bytes) : Edit (Option (Scored V) × ScoredSet V) := do
  let (old, byMember) ← z.byMember.erase member
  match old with
  | none => return (none, z)
  | some scored =>
    let key ← ScoreKey.ofScore scored.score
    let z ← eraseFromBucket { z with byMember } key member
    return (some scored, z)

/-- Remove members, one after another. Answers how many of them were present when their turn came. -/
def eraseAll (z : ScoredSet V) : List Bytes → Edit (Nat × ScoredSet V)
  | [] => return (0, z)
  | member :: members => do
    let (old, z) ← z.erase member
    let (count, z) ← z.eraseAll members
    return (count + (if old.isSome then 1 else 0), z)

end ScoredSet

end OrderedStore
