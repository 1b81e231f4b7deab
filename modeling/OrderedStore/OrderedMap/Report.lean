import OrderedStore.OrderedMap.Basic
import OrderedStore.Text.Quoted

/-!
# Showing an ordered map

A map is shown in two ways: by its entries in key order, or by the outline of its trie, one line per
node with the node's segment, its value if it has one, and the number of its edges.
-/

namespace OrderedStore

namespace Node

/-- One line for a node and one for each node below it, indented by depth. -/
def outline {V : Type} (leaves : Pool V) (showValue : V → String) (depth : Nat) (n : Node) :
    Except Fault (List String) := do
  let value ← match n.leaf with
    | none => pure ""
    | some id => do pure (" = " ++ showValue (← leaves.get id).value)
  let line := String.ofList (List.replicate (2 * depth) ' ') ++ "[" ++ Quoted.ofBytes n.segment ++ "]" ++ value ++
    " (" ++ toString n.edges.length ++ " edges)\n"
  let below ← n.edges.attach.mapM fun ⟨e, _⟩ => e.child.outline leaves showValue (depth + 1)
  return line :: below.flatten
termination_by sizeOf n
decreasing_by exact sizeOf_child_lt (by assumption)

end Node

namespace OrderedMap

variable {V : Type}

/-- The entries in key order, quoted keys before their values. -/
def describe (showValue : V → String) (m : OrderedMap V) : Except Fault String := do
  let entries ← m.walk.toList
  let shown := entries.map fun leaf => Quoted.ofBytes leaf.key ++ ": " ++ showValue leaf.value
  return "\x7b" ++ String.intercalate ", " shown ++ "\x7d"

/-- The outline of the trie, between a heading with the number of keys and a closing line. -/
def outline (showValue : V → String) (m : OrderedMap V) : Except Fault String := do
  let lines ← m.trie.root.outline m.leaves showValue 0
  return "=== RadixTree Debug ===\n" ++ "Size: " ++ toString m.size ++ "\n" ++ String.join lines ++
    "=======================\n"

end OrderedMap

end OrderedStore
