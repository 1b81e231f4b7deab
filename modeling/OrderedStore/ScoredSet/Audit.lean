import OrderedStore.OrderedMap.Audit
import OrderedStore.ScoredSet.Basic
import OrderedStore.Text.Quoted

/-!
# Auditing a scored set

The audit reads the map by member, then every bucket against its score and against that map, then the
counts, and at last the chain through all buckets. It reports what a sound set would not show.
-/

namespace OrderedStore

namespace ScoredSet

variable {V : Type}

/-- Something that a sound scored set does not show. -/
inductive Issue
  | inMap (issue : OrderedMap.Issue)
  | bucketKey (size : Nat)
  | emptyBucket (key : ScoreKey)
  | inBucket (key : ScoreKey) (issue : Trie.Issue)
  | wrongBucket (member : Bytes) (score : Binary64) (key : ScoreKey)
  | scoreDiffers (member : Bytes) (inBucket inMap : Binary64)
  | unknownMember (member : Bytes)
  | memberCount (inBuckets inMap : Nat)
  | liveCount (live inBuckets : Nat)
  | beforeLowest
  | brokenPrev (member : Bytes)
  | chainOrder (member : Bytes)
  | chainTooLong
  | chainLength (visited card : Nat)
  deriving DecidableEq, Repr

def Issue.text : Issue → String
  | inMap issue => "lex index: " ++ issue.text
  | bucketKey size => "bucket index holds a " ++ toString size ++ "-byte key"
  | emptyBucket key => "empty bucket " ++ key.text ++ " kept in the score index"
  | inBucket key issue => "bucket " ++ key.text ++ ": " ++ issue.text
  | wrongBucket member score key =>
    "member " ++ member.listing ++ " with score " ++ score.text .full ++ " in bucket " ++ key.text
  | scoreDiffers member here there =>
    "member " ++ member.listing ++ " scored " ++ here.text .full ++ " in its bucket but " ++
      there.text .full ++ " in the lex index"
  | unknownMember member => "member " ++ member.listing ++ " missing from the lex index"
  | memberCount total card =>
    "buckets hold " ++ toString total ++ " members, lex index " ++ toString card
  | liveCount live total =>
    "chain arena holds " ++ toString live ++ " leaves for " ++ toString total ++ " members"
  | beforeLowest => "lowest member has a predecessor"
  | brokenPrev member => "broken prev link at " ++ member.listing
  | chainOrder member => "chain out of order at " ++ member.listing
  | chainTooLong => "chain visits more leaves than there are members"
  | chainLength visited card =>
    "chain visits " ++ toString visited ++ " of " ++ toString card ++ " members"

/-- What one member of a bucket shows. -/
def memberIssues (z : ScoredSet V) (key : ScoreKey) (leaf : Leaf (Scored V)) : Except Fault (List Issue) := do
  let score := leaf.value.score
  let own ← ScoreKey.ofScore score
  let place := if own = key then [] else [.wrongBucket leaf.key score key]
  let agreement := match ← z.byMember.get? leaf.key with
    | some indexed => if indexed.score.same score then [] else [.scoreDiffers leaf.key score indexed.score]
    | none => [.unknownMember leaf.key]
  return place ++ agreement

/-- What one bucket shows, and the number of members it counts. -/
def bucketIssues (z : ScoredSet V) (entry : Leaf Trie) : Except Fault (List Issue × Nat) := do
  match ScoreKey.ofBytes? entry.key with
  | none => return ([.bucketKey entry.key.length], 0)
  | some key =>
    let bucket := entry.value
    if bucket.isEmpty then return ([.emptyBucket key], 0)
    let inTrie ← bucket.issues z.chain
    let found ← (z.walkBetween bucket.first bucket.last).mapM (z.memberIssues key)
    return (inTrie.map (.inBucket key) ++ found.flatten, bucket.size)

/-- Whether one member comes before another, by score and then by name. -/
def precedes (a b : Leaf (Scored V)) : Except Fault Bool := do
  let keyA ← ScoreKey.ofScore a.value.score
  let keyB ← ScoreKey.ofScore b.value.score
  return keyA.word < keyB.word || (keyA = keyB && a.key < b.key)

/-- What one link of the chain shows. -/
def linkIssues (z : ScoredSet V) (current next : Link) : Except Fault (List Issue) := do
  let there ← z.chain.get next
  let here ← z.chain.get current
  let ordered ← precedes here there
  return (if there.prev = current then [] else [.brokenPrev there.key]) ++
    (if ordered then [] else [.chainOrder there.key])

/-- Follow the chain to its end. `visited` members have been met, and at most `room` more may be. -/
def followChain (z : ScoredSet V) : (room visited : Nat) → (current : Link) → Except Fault (List Issue)
  | room, visited, current => do
    let next ← z.chain.nextOf current
    if next = none then return if visited = z.card then [] else [.chainLength visited z.card]
    let here ← z.linkIssues current next
    match room with
    | 0 => return here ++ [.chainTooLong]
    | room + 1 => return here ++ (← z.followChain room (visited + 1) next)

/-- What the chain through all buckets shows. -/
def chainIssues (z : ScoredSet V) : Except Fault (List Issue) := do
  let some (first, _) ← z.ends? | return []
  let before ← z.chain.prevOf first
  let start := if before = none then [] else [.beforeLowest]
  return start ++ (← z.followChain (z.card - 1) 1 first)

/-- Everything an audit of a scored set reports, in the order in which it is met. -/
def issues (z : ScoredSet V) : Except Fault (List Issue) := do
  let inMap ← z.byMember.issues
  let found ← z.buckets.walk.mapM z.bucketIssues
  let total := Count.total (found.map Prod.snd)
  let chain ← z.chainIssues
  return inMap.map .inMap ++ (found.map Prod.fst).flatten ++
    (if total = z.card then [] else [.memberCount total z.card]) ++
    (if z.chain.live = total then [] else [.liveCount z.chain.live total]) ++ chain

/-- How many nodes and tables are not shared with an earlier version of the set. The nodes of the
buckets count through the map of buckets that holds them. -/
def unsharedWith (z earlier : ScoredSet V) : Nat :=
  z.byMember.unsharedWith earlier.byMember + z.buckets.unsharedWith earlier.buckets +
    z.chain.unsharedWith earlier.chain

/-- The members with their scores, in order. -/
def describe (z : ScoredSet V) : Except Fault String := do
  let members ← (← z.walk).toList
  let shown := members.map fun leaf =>
    "(" ++ Quoted.ofBytes leaf.key ++ ", " ++ leaf.value.score.text .listing ++ ")"
  return "[" ++ String.intercalate ", " shown ++ "]"

end ScoredSet

end OrderedStore
