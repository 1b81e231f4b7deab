import OrderedStore.Count
import OrderedStore.Pool.Chain
import OrderedStore.Trie.Search
import OrderedStore.Trie.Path

/-!
# Tries over a pool of leaves

A trie holds nodes only; its leaves live in a pool that the caller passes in. Every write keeps the
nodes and the chain of leaves in step: a new leaf is linked next to its nearest neighbour in this trie,
a removed leaf is unlinked, and the leaves below a removed node are freed as one run.

Several tries may keep their leaves in one pool. The neighbour's outer link may then lead into another
trie, and linking through it keeps the combined chain whole without knowing about the other trie.
-/

namespace OrderedStore

/-- A trie and the number of keys it counts. -/
structure Trie where
  root : Node
  size : Nat

namespace Trie

variable {V : Type}

/-- A trie without keys. -/
def empty (stamp : Stamp) : Trie := ⟨Node.bare stamp [], 0⟩

def isEmpty (t : Trie) : Bool := t.size == 0

/-- The leaf of the least key. -/
def first (t : Trie) : Link := t.root.least

/-- The leaf of the greatest key. -/
def last (t : Trie) : Link := t.root.greatest

/-- The link to the leaf of a key. -/
def find? (t : Trie) (key : Bytes) : Option Link := t.root.find? key

/-- The leaves of the nearest keys on either side of a key. -/
def neighbors (t : Trie) (key : Bytes) : Neighbors := t.root.neighbors key ⟨none, none⟩

/-- The leaf of the least key that is not below the given one. -/
def atOrAbove (t : Trie) (key : Bytes) : Link := (t.find? key).getD (t.neighbors key).above.join

/-- The leaf of the greatest key that is not above the given one. -/
def atOrBelow (t : Trie) (key : Bytes) : Link := (t.find? key).getD (t.neighbors key).below.join

/-- The node that covers exactly the keys starting with the given bytes. -/
def covering? (t : Trie) (start : Bytes) : Option Node := t.root.covering? start

/-- The link to the leaf of the longest key that the given one starts with. -/
def longest? (t : Trie) (key : Bytes) : Option Link := t.root.longest? key none

/-- Store a value under a key. Answers the value it replaces. -/
def insert (t : Trie) (leaves : Pool V) (key : Bytes) (value : V) :
    Edit (Option V × Trie × Pool V) := do
  match t.find? key with
  | some id =>
    let old ← leaves.get id
    let leaves ← leaves.modify id ({ · with value })
    return (some old.value, t, leaves)
  | none =>
    let near := t.neighbors key
    let (id, leaves) ← leaves.put key value
    let root ← t.root.insert key id
    let leaves ← match near.below, near.above with
      | some pred, _ => leaves.spliceAfter pred id
      | none, some succ => leaves.spliceBefore succ id
      | none, none => pure leaves
    return (none, ⟨root, Count.succ t.size⟩, leaves)

/-- Remove a key. Answers its value. -/
def erase (t : Trie) (leaves : Pool V) (key : Bytes) : Edit (Option V × Trie × Pool V) := do
  match t.find? key with
  | none => return (none, t, leaves)
  | some id =>
    let root ← t.root.erase key
    let leaves ← leaves.unlink id
    let (leaf, leaves) ← leaves.vacate id
    return (some leaf.value, ⟨root, Count.less t.size 1⟩, leaves)

/-- Remove every key that starts with the given bytes. Answers how many there were. -/
def eraseUnder (t : Trie) (leaves : Pool V) (start : Bytes) : Edit (Nat × Trie × Pool V) := do
  match t.covering? start with
  | none => return (0, t, leaves)
  | some target =>
    if target.least = none then return (0, t, leaves)
    let root ← t.root.eraseUnder start
    let (count, leaves) ← leaves.vacateRun target.least target.greatest
    return (count, ⟨root, Count.less t.size count⟩, leaves)

/-- Remove every key. Answers how many there were. -/
def clear (t : Trie) (leaves : Pool V) : Edit (Nat × Trie × Pool V) := t.eraseUnder leaves []

end Trie

end OrderedStore
