import OrderedStore.OrderedMap.Basic
import OrderedStore.Pool.Sharing
import OrderedStore.Trie.Audit
import OrderedStore.Trie.Sharing

/-!
# Auditing an ordered map

A map owns its pool, so beyond what the audit of its trie sees, the chain must end at the trie's first
and last leaf and the pool must hold no other leaves. What two versions of a map share is the sum of
what their tries and their pools share.
-/

namespace OrderedStore.OrderedMap

variable {V : Type}

/-- Something that a sound map does not show. -/
inductive Issue
  | inTrie (issue : Trie.Issue)
  | beforeFirst
  | afterLast
  | liveCount (live size : Nat)
  deriving DecidableEq, Repr

def Issue.text : Issue → String
  | inTrie issue => issue.text
  | beforeFirst => "first leaf has a predecessor"
  | afterLast => "last leaf has a successor"
  | liveCount live size => "arena holds " ++ toString live ++ " leaves but tree len is " ++ toString size

/-- Everything an audit of a map reports, in the order in which it is met. -/
def issues (m : OrderedMap V) : Except Fault (List Issue) := do
  let inTrie ← m.trie.issues m.leaves
  let first ← m.first?
  let last ← m.last?
  return inTrie.map .inTrie ++
    (if first.bind Leaf.prev = none then [] else [.beforeFirst]) ++
    (if last.bind Leaf.next = none then [] else [.afterLast]) ++
    (if m.leaves.live = m.size then [] else [.liveCount m.leaves.live m.size])

/-- How many nodes and tables are not shared with an earlier version of the map. -/
def unsharedWith (m earlier : OrderedMap V) : Nat :=
  m.trie.unsharedWith earlier.trie + m.leaves.unsharedWith earlier.leaves

end OrderedStore.OrderedMap
