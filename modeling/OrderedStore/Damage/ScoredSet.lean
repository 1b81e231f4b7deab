import OrderedStore.Damage.Trie
import OrderedStore.ScoredSet.Basic

/-!
# Damaging a scored set

Writes that change one of the places in which a scored set keeps a member and leave the others alone.
-/

namespace OrderedStore

/-- A write to one part of a scored set. -/
inductive SetDamage
  /-- Damage the map by member. -/
  | inMap (d : TrieDamage)
  /-- Damage the map of buckets. -/
  | inBuckets (d : TrieDamage)
  /-- Damage the bucket of a score, or the chain through all buckets. -/
  | inBucket (score : Binary64) (d : TrieDamage)
  | chain (d : ChainDamage)
  /-- Change the score in a leaf of the chain. -/
  | rescore (leaf : Link) (score : Binary64)
  /-- Change the score in the map by member. -/
  | rescoreInMap (member : Bytes) (score : Binary64)
  | eraseFromMap (member : Bytes)
  | insertIntoMap (member : Bytes) (score : Binary64)
  /-- Store an empty bucket under any key. -/
  | insertBucket (key : Bytes)
  /-- Drop a bucket and leave its members in the chain. -/
  | eraseBucket (score : Binary64)

namespace ScoredSet

variable {V : Type}

/-- The leaf of a member in the bucket of a score, if both are there. -/
def leafIn (z : ScoredSet V) (score : Binary64) (member : Bytes) : Except Fault Link := do
  let key ← ScoreKey.ofScore score
  let bucket ← z.buckets.get? key.toBytes
  return (bucket.bind (·.find? member)).join

/-- Write one part. `fill` is the payload of what is stored. -/
def damage (z : ScoredSet V) (fill : V) : SetDamage → Edit (ScoredSet V)
  | .inMap d => return { z with byMember := ← z.byMember.damage ⟨.zero, fill⟩ d }
  | .inBuckets d => do
    let bucket := Trie.empty (← Edit.fresh)
    return { z with buckets := ← z.buckets.damage bucket d }
  | .inBucket score d => do
    let key ← ScoreKey.ofScore score
    let (_, _, z) ← z.editBucket key fun bucket chain => do
      let (bucket, chain) ← bucket.damage chain ⟨.zero, fill⟩ d
      return ((), bucket, chain)
    return z
  | .chain d => return { z with chain := ← z.chain.damage d }
  | .rescore leaf score => do
    let chain ← z.chain.modify leaf fun leaf => { leaf with value := { leaf.value with score } }
    return { z with chain }
  | .rescoreInMap member score => do
    let byMember ← z.byMember.modify? member ({ · with score })
    return { z with byMember := byMember.getD z.byMember }
  | .eraseFromMap member => return { z with byMember := (← z.byMember.erase member).2 }
  | .insertIntoMap member score => return { z with byMember := (← z.byMember.put member ⟨score, fill⟩).2 }
  | .insertBucket key => do
    let bucket := Trie.empty (← Edit.fresh)
    return { z with buckets := (← z.buckets.put key bucket).2 }
  | .eraseBucket score => do
    let key ← ScoreKey.ofScore score
    return { z with buckets := (← z.buckets.erase key.toBytes).2 }

end ScoredSet

end OrderedStore
