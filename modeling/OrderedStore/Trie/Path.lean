import OrderedStore.Trie.Node

/-!
# Writing along a path

A write rebuilds the nodes on the path of one key, each under a new stamp, and leaves everything beside
the path as it is. On the way back up the first and last leaf of every rebuilt node are computed anew,
and after a removal each edge on the path is compacted, so that no node is left without a leaf and with
fewer than two edges.
-/

namespace OrderedStore.Node

/-- Split the segment of a child where it parts from the bytes of a new leaf. The new node keeps what
they have in common; below it hang the rest of the child and, if bytes are left for it, the leaf. -/
def split (child : Node) (rest : Bytes) (id : LeafId) : Edit (Edge Node) := do
  let common := Bytes.agreement child.segment rest
  let tail := { child with stamp := ← Edit.fresh, segment := child.segment.drop common }
  let fork ← (bare (← Edit.fresh) (rest.take common)).insertEdge (← edgeTo tail)
  let fork ←
    if common = rest.length then pure { fork with leaf := some id }
    else fork.insertEdge (← edgeTo (ofLeaf (← Edit.fresh) (rest.drop common) id))
  edgeTo fork.refresh

/-- Put a leaf at the node's path followed by the given bytes, where there is none yet. -/
def insert (n : Node) (rest : Bytes) (id : LeafId) : Edit Node := do
  let n' := { n with stamp := ← Edit.fresh }
  match rest with
  | [] => return refresh { n' with leaf := some id }
  | b :: bs =>
    match Edge.locate n.edges b with
    | .before i =>
      let new ← edgeTo (ofLeaf (← Edit.fresh) (b :: bs) id)
      return refresh { n' with edges := n.edges.insertIdx i new }
    | .on i =>
      match _h : n.edges[i]? with
      | none => throw (.outOfRange i n.edges.length)
      | some e =>
        let e ← match Bytes.after? e.child.segment (b :: bs) with
          | some rest => do pure { e with child := ← e.child.insert rest id }
          | none => e.child.split (b :: bs) id
        return refresh { n' with edges := n.edges.set i e }
termination_by sizeOf n
decreasing_by exact sizeOf_child_lt (List.mem_of_getElem? _h)

/-- Take away the leaf at the node's path followed by the given bytes. -/
def erase (n : Node) (rest : Bytes) : Edit Node := do
  let n' := { n with stamp := ← Edit.fresh }
  match rest with
  | [] => return refresh { n' with leaf := none }
  | b :: bs =>
    match Edge.locate n.edges b with
    | .before _ => return n'
    | .on i =>
      match _h : n.edges[i]? with
      | none => throw (.outOfRange i n.edges.length)
      | some e =>
        match Bytes.after? e.child.segment (b :: bs) with
        | none => return n'
        | some rest =>
          let child ← e.child.erase rest
          let n' ← recompress { n' with edges := n.edges.set i { e with child } } i
          return n'.refresh
termination_by sizeOf n
decreasing_by exact sizeOf_child_lt (List.mem_of_getElem? _h)

/-- Take away every leaf whose key starts with the node's path followed by the given bytes. If no bytes
are left the node itself is emptied; only a root is ever emptied so, any other node is dropped from its
parent. -/
def eraseUnder (n : Node) (rest : Bytes) : Edit Node := do
  let n' := { n with stamp := ← Edit.fresh }
  match rest with
  | [] => return refresh { n' with leaf := none, edges := [] }
  | b :: bs =>
    match Edge.locate n.edges b with
    | .before _ => return n'
    | .on i =>
      match _h : n.edges[i]? with
      | none => throw (.outOfRange i n.edges.length)
      | some e =>
        let size := e.child.segment.length
        if (b :: bs).length ≤ size then
          return refresh { n' with edges := n.edges.eraseIdx i }
        else
          let child ← e.child.eraseUnder ((b :: bs).drop size)
          let n' ← recompress { n' with edges := n.edges.set i { e with child } } i
          return n'.refresh
termination_by sizeOf n
decreasing_by exact sizeOf_child_lt (List.mem_of_getElem? _h)

end OrderedStore.Node
