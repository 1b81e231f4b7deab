import OrderedStore.Trie.Node

/-!
# Searching a trie

Every search is one descent: at each node the next byte of the key chooses an edge, and the key is
shortened by the segment behind it. The descents differ in what they keep on the way. A plain look-up
keeps nothing. The longest stored beginning keeps the deepest leaf passed. The neighbours of a key keep
the nearest leaf on either side; a leaf met deeper is nearer, so it replaces what was kept before.
-/

namespace OrderedStore

/-- The leaves on either side of a key. A side is `none` if the trie has no leaf there, and
`some none` if it should have one but a boundary says it has not. -/
structure Neighbors where
  below : Option Link
  above : Option Link
  deriving DecidableEq, Repr

namespace Node

/-- The link to the leaf whose key is the node's path followed by the given bytes. -/
def find? (n : Node) : Bytes → Option Link
  | [] => n.leaf
  | b :: bs =>
    match _h : n.child? b with
    | none => none
    | some c =>
      match Bytes.after? c.segment (b :: bs) with
      | none => none
      | some rest => c.find? rest
termination_by sizeOf n
decreasing_by exact sizeOf_child?_lt _h

/-- The leaves next to a key, itself left out, given the nearest ones seen so far. -/
def neighbors (n : Node) (rest : Bytes) (seen : Neighbors) : Neighbors :=
  match rest with
  | [] => { seen with above := (n.edges.head?.map (·.child.least)).or seen.above }
  | b :: bs =>
    let i := (Edge.locate n.edges b).index
    let below := if i = 0 then none else n.edges[i - 1]?.map (·.child.greatest)
    let below := below.or (n.leaf.or seen.below)
    match _h : n.child? b with
    | none => ⟨below, (n.edges[i]?.map (·.child.least)).or seen.above⟩
    | some c =>
      let above := (n.edges[i + 1]?.map (·.child.least)).or seen.above
      match Bytes.after? c.segment (b :: bs) with
      | some rest => c.neighbors rest ⟨below, above⟩
      | none =>
        if b :: bs < c.segment then ⟨below, some c.least⟩ else ⟨some c.greatest, above⟩
termination_by sizeOf n
decreasing_by exact sizeOf_child?_lt _h

/-- The node below which lie exactly the leaves whose key starts with the node's path followed by the
given bytes. -/
def covering? (n : Node) : Bytes → Option Node
  | [] => some n
  | b :: bs =>
    match _h : n.child? b with
    | none => none
    | some c =>
      if Bytes.starts (b :: bs) c.segment then some c
      else
        match Bytes.after? c.segment (b :: bs) with
        | none => none
        | some rest => c.covering? rest
termination_by sizeOf n
decreasing_by exact sizeOf_child?_lt _h

/-- The link to the deepest leaf whose key is a beginning of the node's path followed by the given bytes,
given the deepest one seen so far. -/
def longest? (n : Node) (rest : Bytes) (seen : Option Link) : Option Link :=
  let seen := n.leaf.or seen
  match rest with
  | [] => seen
  | b :: bs =>
    match _h : n.child? b with
    | none => seen
    | some c =>
      match Bytes.after? c.segment (b :: bs) with
      | none => seen
      | some rest => c.longest? rest seen
termination_by sizeOf n
decreasing_by exact sizeOf_child?_lt _h

end Node

end OrderedStore
