import OrderedStore.OrderedMap.Basic

/-!
# Damaging a trie

An audit can only be tried on structures that are not sound, and no ordinary write makes one. The writes
here change one field each and keep no invariant: a link, a key in a leaf, a count, a field of a node.
Leaves are named by their keys and looked up before anything is changed; a key that is not there names
no leaf.
-/

namespace OrderedStore

/-- A write to one field of a chain of leaves, each named by a link. -/
inductive ChainDamage
  | connect (a b : Link)
  | setNext (a b : Link)
  | setPrev (a b : Link)

/-- Write one field of a chain. -/
def Pool.damage {V : Type} (p : Pool V) : ChainDamage → Edit (Pool V)
  | .connect a b => p.connect a b
  | .setNext a b => p.modify a ({ · with next := b })
  | .setPrev a b => p.modify a ({ · with prev := b })

/-- A write to one field of a node, nothing refreshed. -/
inductive NodeDamage
  | setSegment (segment : Bytes)
  /-- Hold another leaf, or none if the link leads nowhere. -/
  | setLeaf (leaf : Link)
  | setLeast (leaf : Link)
  | setGreatest (leaf : Link)
  | setLabel (i : Nat) (label : UInt8)
  /-- Exchange an edge with the one after it. -/
  | swap (i : Nat)
  | dropEdge (i : Nat)
  /-- Add an edge to a node without leaf and edges. -/
  | addBare (segment : Bytes)
  /-- Add an edge to a node that holds a leaf, also if the link to it leads nowhere. -/
  | addLeaf (segment : Bytes) (leaf : Link)
  | refresh
  | compact (i : Nat)

namespace Node

/-- Write one field of a node. -/
def damage (n : Node) : NodeDamage → Edit Node
  | .setSegment segment => return { n with segment }
  | .setLeaf leaf => return { n with leaf := leaf.map some }
  | .setLeast leaf => return { n with least := leaf }
  | .setGreatest leaf => return { n with greatest := leaf }
  | .setLabel i label =>
    match n.edges[i]? with
    | none => throw (.outOfRange i n.edges.length)
    | some e => return { n with edges := n.edges.set i { e with label } }
  | .swap i =>
    match n.edges[i]?, n.edges[i + 1]? with
    | some a, some b => return { n with edges := (n.edges.set i b).set (i + 1) a }
    | some _, none => throw (.outOfRange (i + 1) n.edges.length)
    | none, _ => throw (.outOfRange i n.edges.length)
  | .dropEdge i =>
    if i < n.edges.length then return { n with edges := n.edges.eraseIdx i }
    else throw (.outOfRange i n.edges.length)
  | .addBare segment => do n.insertEdge (← edgeTo (bare (← Edit.fresh) segment))
  | .addLeaf segment leaf => do n.insertEdge (← edgeTo (ofLeaf (← Edit.fresh) segment leaf))
  | .refresh => return n.refresh
  | .compact i => n.recompress i

/-- Write one field of the node whose path is this node's followed by the given bytes. -/
def damageAt (n : Node) (path : Bytes) (d : NodeDamage) : Edit Node := do
  let n' := { n with stamp := ← Edit.fresh }
  match path with
  | [] => n'.damage d
  | b :: bs =>
    match Edge.locate n.edges b with
    | .before _ => return n'
    | .on i =>
      match _h : n.edges[i]? with
      | none => return n'
      | some e =>
        match Bytes.after? e.child.segment (b :: bs) with
        | none => return n'
        | some rest =>
          let child ← e.child.damageAt rest d
          return { n' with edges := n.edges.set i { e with child } }
termination_by sizeOf n
decreasing_by exact sizeOf_child_lt (List.mem_of_getElem? _h)

end Node

/-- A write to one field of a trie or of the pool its leaves are in. -/
inductive TrieDamage
  | chain (d : ChainDamage)
  /-- Replace the key that is stored in a leaf. -/
  | setKey (leaf : Link) (key : Bytes)
  /-- Store a leaf that no chain links to. -/
  | addStray (key : Bytes)
  /-- Free a leaf without unlinking it. -/
  | vacate (leaf : Link)
  | setSize (n : Nat)
  | node (path : Bytes) (d : NodeDamage)

namespace Trie

variable {V : Type}

/-- Write one field. `fill` is the value of a leaf that is stored. -/
def damage (t : Trie) (leaves : Pool V) (fill : V) : TrieDamage → Edit (Trie × Pool V)
  | .chain d => return (t, ← leaves.damage d)
  | .setKey leaf key => return (t, ← leaves.modify leaf ({ · with key }))
  | .addStray key => return (t, (← leaves.put key fill).2)
  | .vacate leaf => return (t, (← leaves.vacate leaf).2)
  | .setSize size => return ({ t with size }, leaves)
  | .node path d => return ({ t with root := ← t.root.damageAt path d }, leaves)

end Trie

/-- Write one field of a map. -/
def OrderedMap.damage {V : Type} (m : OrderedMap V) (fill : V) (d : TrieDamage) : Edit (OrderedMap V) := do
  let (trie, leaves) ← m.trie.damage m.leaves fill d
  return { m with trie, leaves }

end OrderedStore
