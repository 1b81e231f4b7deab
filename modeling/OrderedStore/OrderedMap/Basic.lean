import OrderedStore.Trie.Basic
import OrderedStore.Walk.Basic
import OrderedStore.Walk.Cursor

/-!
# Ordered maps

A map from byte strings to values: one trie, with a pool of its own for the leaves. The trie finds a key
in one descent; the chain of leaves lists the entries in key order from there, either way.

Maps are values. An older version stays what it was when a newer one is written, and the two share
everything that the write did not pass through.
-/

namespace OrderedStore

/-- An ordered map from byte strings to values. -/
structure OrderedMap (V : Type) where
  trie : Trie
  leaves : Pool V := {}
  /-- Longer keys are refused. -/
  keyLimit : Nat

namespace OrderedMap

variable {V : Type}

/-- The longest key accepted unless a map is told otherwise: half a gibibyte. -/
def defaultKeyLimit : Nat := 512 * 1024 * 1024

/-- A map without entries. -/
def empty (V : Type) (stamp : Stamp) (keyLimit : Nat := defaultKeyLimit) : OrderedMap V :=
  { trie := Trie.empty stamp, keyLimit }

/-- How many keys the map counts. -/
def size (m : OrderedMap V) : Nat := m.trie.size

def isEmpty (m : OrderedMap V) : Bool := m.trie.isEmpty

/-- Whether no leaf was ever stored, so that the map holds no table at all. -/
def isUntouched (m : OrderedMap V) : Bool := m.leaves.root.isNone

/-! ## Reading -/

def contains (m : OrderedMap V) (key : Bytes) : Bool := (m.trie.find? key).isSome

/-- The value stored under a key. -/
def get? (m : OrderedMap V) (key : Bytes) : Except Fault (Option V) :=
  (m.trie.find? key).mapM fun link => return (← m.leaves.get link).value

/-- The entry of the longest key that the given one starts with. -/
def longest? (m : OrderedMap V) (key : Bytes) : Except Fault (Option (Leaf V)) :=
  (m.trie.longest? key).mapM m.leaves.get

/-- The leaf behind a link, if the link leads anywhere. -/
def leafAt (m : OrderedMap V) (link : Link) : Except Fault (Option (Leaf V)) :=
  if link = none then .ok none else some <$> m.leaves.get link

/-- The entry of the least key. -/
def first? (m : OrderedMap V) : Except Fault (Option (Leaf V)) := m.leafAt m.trie.first

/-- The entry of the greatest key. -/
def last? (m : OrderedMap V) : Except Fault (Option (Leaf V)) := m.leafAt m.trie.last

/-- All entries in key order. -/
def walk (m : OrderedMap V) : Walk V := ⟨m.leaves, .between m.trie.first m.trie.last, false, fun _ => true⟩

/-- The entries whose key starts with the given bytes, in key order. -/
def walkUnder (m : OrderedMap V) (start : Bytes) : Walk V :=
  match m.trie.covering? start with
  | some n => { m.walk with span := .between n.least n.greatest }
  | none => { m.walk with span := .nothing }

/-- The entries from the given key on, in key order. -/
def walkFrom (m : OrderedMap V) (key : Bytes) : Walk V :=
  { m.walk with span := .between (m.trie.atOrAbove key) m.trie.last }

/-- The entries down from the given key, in descending key order. -/
def walkDownFrom (m : OrderedMap V) (key : Bytes) : Walk V :=
  { m.walk with span := .between m.trie.first (m.trie.atOrBelow key), descending := true }

/-- The entries whose key starts with the given bytes and passes a test, in key order. -/
def walkMatching (m : OrderedMap V) (start : Bytes) (keeps : Bytes → Bool) : Walk V :=
  { m.walkUnder start with keeps }

/-- The entries whose key starts with the given bytes and fits a pattern, in key order. Which texts are
patterns and what they fit is up to the reader of patterns. -/
def walkFitting (read? : String → Option (Bytes → Bool)) (m : OrderedMap V) (start : Bytes) (pattern : String) :
    Except InputError (Walk V) :=
  match read? pattern with
  | none => .error .invalidPattern
  | some keeps => .ok (m.walkMatching start keeps)

/-- A cursor on the first entry. -/
def cursor (m : OrderedMap V) : Cursor V := ⟨m.leaves, m.trie.first, m.trie.last, m.trie.first⟩

/-- A cursor on the first entry from the given key on. -/
def cursorFrom (m : OrderedMap V) (key : Bytes) : Cursor V :=
  { m.cursor with position := m.trie.atOrAbove key }

/-! ## Writing -/

/-- Refuses a key that is too long. -/
def checkLength (m : OrderedMap V) (key : Bytes) : Except InputError Unit :=
  if key.length > m.keyLimit then .error (.keyTooLong key.length m.keyLimit) else .ok ()

/-- Store a value under a key that is known to be short enough. Answers the value it replaces. -/
def put (m : OrderedMap V) (key : Bytes) (value : V) : Edit (Option V × OrderedMap V) := do
  let (old, trie, leaves) ← m.trie.insert m.leaves key value
  return (old, { m with trie, leaves })

/-- Store a value under a key. Answers the value it replaces. -/
def insert (m : OrderedMap V) (key : Bytes) (value : V) :
    Edit (Except InputError (Option V × OrderedMap V)) := do
  match m.checkLength key with
  | .error e => return .error e
  | .ok () => return .ok (← m.put key value)

/-- Store a value under a key that should be short enough. If it is refused the map stays as it is. -/
def insertOrKeep (m : OrderedMap V) (key : Bytes) (value : V) : Edit (OrderedMap V) := do
  match ← m.insert key value with
  | .error _ => return m
  | .ok (_, m) => return m

/-- Change the value under a key, if the key is there. The tables on its path are copied even if the
value stays the same. -/
def modify? (m : OrderedMap V) (key : Bytes) (f : V → V) : Edit (Option (OrderedMap V)) := do
  match m.trie.find? key with
  | none => return none
  | some id =>
    let leaves ← m.leaves.modify id fun leaf => { leaf with value := f leaf.value }
    return some { m with leaves }

/-- Remove a key. Answers its value. -/
def erase (m : OrderedMap V) (key : Bytes) : Edit (Option V × OrderedMap V) := do
  let (old, trie, leaves) ← m.trie.erase m.leaves key
  return (old, { m with trie, leaves })

/-- Remove every key that starts with the given bytes. Answers how many there were. -/
def eraseUnder (m : OrderedMap V) (start : Bytes) : Edit (Nat × OrderedMap V) := do
  let (count, trie, leaves) ← m.trie.eraseUnder m.leaves start
  return (count, { m with trie, leaves })

/-- Remove every key. -/
def clear (m : OrderedMap V) : Edit (OrderedMap V) := return (← m.eraseUnder []).2

end OrderedMap

end OrderedStore
