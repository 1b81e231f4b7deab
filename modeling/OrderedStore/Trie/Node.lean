import OrderedStore.Bytes
import OrderedStore.Stamp

/-!
# Trie nodes

A node is reached through its segment, the bytes between its parent and itself. It holds at most one
leaf, whose key ends exactly here, and edges to its children ordered by label, the first byte of the
child's segment. Each node remembers the first and the last leaf below it. A leaf is held by a link, and
only in a damaged trie may the link of a leaf lead nowhere.

Edges are found by bisection. On edges that ascend strictly this finds the label whenever it is there;
on edges in any other order it still ends, at the place the bisection leads to.
-/

namespace OrderedStore

/-- A labelled edge. -/
structure Edge (α : Type) where
  label : UInt8
  child : α
  deriving DecidableEq, Repr

/-- A trie node with everything below it. -/
structure Node where
  stamp : Stamp
  segment : Bytes
  /-- The link to the leaf of the key that ends here, if there is such a leaf. -/
  leaf : Option Link
  edges : List (Edge Node)
  /-- The first leaf below, by the node's own account. -/
  least : Link
  /-- The last leaf below, by the node's own account. -/
  greatest : Link

/-- Where a label belongs among edges: on an edge that has it, or in front of a position. -/
inductive Spot
  | on (i : Nat)
  | before (i : Nat)
  deriving DecidableEq, Repr

namespace Spot

/-- How many edges lie to the left. -/
def index : Spot → Nat
  | on i => i
  | before i => i

end Spot

namespace Edge

variable {α : Type}

/-- Halve the stretch of `size` edges from `base` until one is left: the right half is kept unless it
starts above the label. -/
def narrow (edges : List (Edge α)) (label : UInt8) (base size : Nat) : Nat :=
  if size ≤ 1 then base
  else
    let mid := base + size / 2
    let base := if edges[mid]?.any (label < ·.label) then base else mid
    narrow edges label base (size - size / 2)
termination_by size

/-- Where a label belongs among the edges. -/
def locate (edges : List (Edge α)) (label : UInt8) : Spot :=
  let i := narrow edges label 0 edges.length
  match edges[i]? with
  | none => .before i
  | some e => if e.label = label then .on i else if e.label < label then .before (i + 1) else .before i

/-- The child behind a label. -/
def child? (edges : List (Edge α)) (label : UInt8) : Option α :=
  match locate edges label with
  | .on i => edges[i]?.map Edge.child
  | .before _ => none

end Edge

namespace Node

/-- A node with neither leaf nor edges. -/
def bare (stamp : Stamp) (segment : Bytes) : Node := ⟨stamp, segment, none, [], none, none⟩

/-- A node that holds a leaf and has no edges. -/
def ofLeaf (stamp : Stamp) (segment : Bytes) (link : Link) : Node :=
  ⟨stamp, segment, some link, [], link, link⟩

/-- The child behind a label. -/
def child? (n : Node) (label : UInt8) : Option Node := Edge.child? n.edges label

theorem sizeOf_child_lt {n : Node} {e : Edge Node} (h : e ∈ n.edges) : sizeOf e.child < sizeOf n := by
  have := List.sizeOf_lt_of_mem h
  cases n
  cases e
  simp at *
  omega

theorem sizeOf_child?_lt {n c : Node} {label : UInt8} (h : n.child? label = some c) :
    sizeOf c < sizeOf n := by
  unfold child? Edge.child? at h
  split at h
  · obtain ⟨e, he, rfl⟩ := Option.map_eq_some_iff.1 h
    exact sizeOf_child_lt (List.mem_of_getElem? he)
  · simp at h

/-- The first leaf below according to the leaf and the edges. A node's own leaf comes first: its key is
a beginning of all the others. -/
def leastOf (leaf : Option Link) (edges : List (Edge Node)) : Link :=
  match leaf, edges.head? with
  | some link, _ => link
  | none, some e => e.child.least
  | none, none => none

/-- The last leaf below according to the leaf and the edges. -/
def greatestOf (leaf : Option Link) (edges : List (Edge Node)) : Link :=
  match edges.getLast?, leaf with
  | some e, _ => e.child.greatest
  | none, some link => link
  | none, none => none

/-- Recompute the first and last leaf from the leaf and the edges. -/
def refresh (n : Node) : Node :=
  { n with least := leastOf n.leaf n.edges, greatest := greatestOf n.leaf n.edges }

/-- The edge to a child: its label is the first byte of the child's segment. -/
def edgeTo (child : Node) : Except Fault (Edge Node) :=
  match child.segment with
  | [] => .error (.outOfRange 0 0)
  | label :: _ => .ok ⟨label, child⟩

/-- Insert an edge at its place. -/
def insertEdge (n : Node) (e : Edge Node) : Except Fault Node :=
  match Edge.locate n.edges e.label with
  | .on _ => .error (.duplicateLabel e.label)
  | .before i => .ok { n with edges := n.edges.insertIdx i e }

/-- Restore path compression behind the edge at `i` after a removal below it: a child left with nothing
is dropped, and a child left with a single edge and no leaf is merged with the node behind that edge. -/
def recompress (n : Node) (i : Nat) : Edit Node := do
  match n.edges[i]? with
  | none => throw (.outOfRange i n.edges.length)
  | some e =>
    if e.child.leaf.isSome then return n
    match e.child.edges with
    | [] => return { n with edges := n.edges.eraseIdx i }
    | [only] =>
      let merged := { only.child with stamp := ← Edit.fresh, segment := e.child.segment ++ only.child.segment }
      return { n with edges := n.edges.set i (← edgeTo merged) }
    | _ => return n

end Node

end OrderedStore
