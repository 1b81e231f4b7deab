import OrderedStore.Trie.Basic

/-!
# What two versions of a trie share

A node of a later version is looked up in an earlier one along the labels that lead to it. If the two
carry one stamp they are one node, and everything below is shared as well.
-/

namespace OrderedStore

/-- How many nodes from here on are not the node at the same place of an earlier version. -/
def Node.unsharedWith (n : Node) (earlier : Option Node) : Nat :=
  if earlier.map Node.stamp = some n.stamp then 0
  else
    1 + (n.edges.attach.map fun ⟨e, _⟩ =>
      e.child.unsharedWith (earlier.bind (·.child? e.label))).foldr (· + ·) 0
termination_by sizeOf n
decreasing_by exact sizeOf_child_lt (by assumption)

/-- How many nodes are not shared with an earlier version of the trie. -/
def Trie.unsharedWith (t earlier : Trie) : Nat := t.root.unsharedWith (some earlier.root)

end OrderedStore
