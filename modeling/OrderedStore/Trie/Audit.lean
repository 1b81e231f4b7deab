import OrderedStore.Text.Bytes
import OrderedStore.Trie.Basic

/-!
# Auditing a trie

An audit reads a trie and its leaves and reports everything that a sound trie would not show: segments,
labels, edge order, remembered first and last leaves, keys that are not at their path, and a chain that
does not run through the trie's own leaves in key order. Links that leave the range of the trie are not
looked at, because other tries may share the chain.
-/

namespace OrderedStore

/-- Something that a sound trie does not show. -/
inductive Trie.Issue
  | rootSegment
  | emptySegment (path : Bytes)
  | needlessNode (path : Bytes) (edges : Nat)
  | misplacedKey (key path : Bytes)
  | edgeOrder (path : Bytes)
  | wrongLabel (label : UInt8)
  | staleBounds (path : Bytes)
  | leafCount (reachable size : Nat)
  | chainEnds
  | brokenPrev (key : Bytes)
  | chainOrder (key : Bytes)
  | chainTooLong
  | chainLength (length size : Nat)
  deriving DecidableEq, Repr

def Trie.Issue.text : Trie.Issue → String
  | rootSegment => "root has a non-empty prefix"
  | emptySegment path => "node under " ++ path.listing ++ " has an empty prefix"
  | needlessNode path edges => "leafless node at " ++ path.listing ++ " has " ++ toString edges ++ " edges"
  | misplacedKey key path => "leaf key " ++ key.listing ++ " stored at path " ++ path.listing
  | edgeOrder path => "edges out of order at " ++ path.listing
  | wrongLabel label => "edge label 0x" ++ Bytes.hexByte label ++ " disagrees with child prefix"
  | staleBounds path => "stale min/max cache at " ++ path.listing
  | leafCount reachable size => toString reachable ++ " reachable leaves but len is " ++ toString size
  | chainEnds => "chain ends before the last leaf"
  | brokenPrev key => "prev link of " ++ key.listing ++ " does not point back"
  | chainOrder key => "chain out of order at " ++ key.listing
  | chainTooLong => "chain is longer than the trie"
  | chainLength length size => "chain has " ++ toString length ++ " leaves but len is " ++ toString size

namespace Node

/-- One issue for each pair of adjacent edges whose labels do not ascend. -/
def orderIssues (path : Bytes) : List (Edge Node) → List Trie.Issue
  | a :: b :: rest =>
    (if a.label < b.label then [] else [.edgeOrder path]) ++ orderIssues path (b :: rest)
  | _ => []

/-- One issue for each edge whose label is not the first byte of its child's segment. -/
def labelIssues (edges : List (Edge Node)) : List Trie.Issue :=
  edges.filterMap fun e =>
    if e.child.segment.head? = some e.label then none else some (.wrongLabel e.label)

/-- What a node shows by itself, given the path that ends with its segment. -/
def ownIssues {V : Type} (leaves : Pool V) (isRoot : Bool) (path : Bytes) (n : Node) :
    Except Fault (List Trie.Issue) := do
  let shape :=
    if isRoot then []
    else
      (if n.segment = [] then [.emptySegment path] else []) ++
      (if n.leaf = none ∧ n.edges.length < 2 then [.needlessNode path n.edges.length] else [])
  let placing ← match n.leaf with
    | none => pure []
    | some id => do
      let leaf ← leaves.get id
      pure (if leaf.key = path then [] else [Trie.Issue.misplacedKey leaf.key path])
  let bounds := if n.refresh.least = n.least ∧ n.refresh.greatest = n.greatest then []
    else [.staleBounds path]
  return shape ++ placing ++ orderIssues path n.edges ++ labelIssues n.edges ++ bounds

/-- The issues of a node and of everything below it. `above` is the path that leads to the node. -/
def issues {V : Type} (leaves : Pool V) (isRoot : Bool) (above : Bytes) (n : Node) :
    Except Fault (List Trie.Issue) := do
  let path := above ++ n.segment
  let own ← ownIssues leaves isRoot path n
  let below ← n.edges.attach.mapM fun ⟨e, _⟩ => e.child.issues leaves false path
  return own ++ below.flatten
termination_by sizeOf n
decreasing_by exact sizeOf_child_lt (by assumption)

/-- How many nodes from here on hold a leaf. -/
def leafCount (n : Node) : Nat :=
  (if n.leaf.isSome then 1 else 0) + (n.edges.attach.map fun ⟨e, _⟩ => e.child.leafCount).foldr (· + ·) 0
termination_by sizeOf n
decreasing_by exact sizeOf_child_lt (by assumption)

end Node

namespace Trie

variable {V : Type}

/-- What one link of the chain shows: it should lead back, and keys should ascend along it. -/
def linkIssues (leaves : Pool V) (current next : Link) : Except Fault (List Issue) := do
  let here ← leaves.get current
  let there ← leaves.get next
  return (if there.prev = current then [] else [.brokenPrev there.key]) ++
    (if here.key < there.key then [] else [.chainOrder there.key])

/-- Follow the chain from `current` to `last`. `seen` leaves have been met, and at most `room` more may
be met before the chain is longer than the trie. -/
def chainIssues (leaves : Pool V) (size : Nat) (last : Link) :
    (room seen : Nat) → (current : Link) → Except Fault (List Issue)
  | room, seen, current => do
    if current = last then return if seen = size then [] else [.chainLength seen size]
    let next ← leaves.nextOf current
    if next = none then return [.chainEnds]
    let here ← linkIssues leaves current next
    match room with
    | 0 => return here ++ [.chainTooLong]
    | room + 1 => return here ++ (← chainIssues leaves size last room (seen + 1) next)

/-- Everything an audit of one trie reports, in the order in which it is met. -/
def issues (t : Trie) (leaves : Pool V) : Except Fault (List Issue) := do
  let root := if t.root.segment = [] then [] else [Issue.rootSegment]
  let nodes ← t.root.issues leaves true []
  let reachable := t.root.leafCount
  let count := if reachable = t.size then [] else [Issue.leafCount reachable t.size]
  let chain ←
    if t.first = none ∨ t.last = none then pure []
    else chainIssues leaves t.size t.last (t.size - 1) 1 t.first
  return root ++ nodes ++ count ++ chain

end Trie

end OrderedStore
