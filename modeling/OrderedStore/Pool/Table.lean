import OrderedStore.Bytes
import OrderedStore.Stamp

/-!
# Slot tables

Leaves live in numbered slots. The slots are kept in a tower of tables: blocks of 64 slots at the
bottom, above them pages of up to 32 children each. Every table carries its stamp, so two versions of
a tower share exactly the tables that no write has passed through.

The type of a table counts the page levels above its blocks; slot `i` is found by reading `i` in mixed
base, 64 for the block and 32 for each page.
-/

namespace OrderedStore

/-- A stored entry and its place in a chain of leaves. -/
structure Leaf (V : Type) where
  key : Bytes
  value : V
  prev : Link
  next : Link
  deriving DecidableEq, Repr

/-- A slot holds a leaf, or the next vacant slot of the free list. -/
inductive Slot (V : Type)
  | vacant (next : Link)
  | live (leaf : Leaf V)
  deriving DecidableEq, Repr

/-- The leaf in a slot. -/
def Slot.leaf? {V : Type} : Slot V → Option (Leaf V)
  | .vacant _ => none
  | .live leaf => some leaf

/-- Sixty-four slots. -/
structure Block (V : Type) where
  stamp : Stamp
  slots : Vector (Slot V) 64

/-- Up to thirty-two tables of the level below. -/
structure Page (T : Type) where
  stamp : Stamp
  children : Array T

/-- A table with the given number of page levels. -/
def Table (V : Type) : Nat → Type
  | 0 => Block V
  | h + 1 => Page (Table V h)

namespace LeafId

/-- The place of a slot in its block. -/
def place (id : LeafId) : Fin 64 := ⟨id.index % 64, Nat.mod_lt _ (by decide)⟩

/-- Which child to take in a page whose children have `h` page levels. -/
def branch (id : LeafId) (h : Nat) : Nat := id.index / (64 * Nat.pow 32 h) % 32

/-- Whether a tower with `h` page levels has room for this slot. -/
def fits (id : LeafId) (h : Nat) : Bool := id.index < 64 * Nat.pow 32 h

end LeafId

namespace Table

variable {V : Type}

def stamp : {h : Nat} → Table V h → Stamp
  | 0, (b : Block V) => b.stamp
  | _ + 1, (p : Page _) => p.stamp

/-- A table without leaves; its stamp is `now` plus its level. -/
def empty (V : Type) (now : Stamp) : (h : Nat) → Table V h
  | 0 => (⟨now, Vector.replicate 64 (.vacant none)⟩ : Block V)
  | h + 1 => (⟨now + (h + 1), #[]⟩ : Page (Table V h))

/-- The slot numbered `id`, if its block exists. -/
def slot? (id : LeafId) : {h : Nat} → Table V h → Option (Slot V)
  | 0, (b : Block V) => some b.slots[id.place]
  | h + 1, (p : Page (Table V h)) => p.children[id.branch h]?.bind (slot? id)

/-- Write a slot. Every table on the way gets a new stamp: the one at level `l` gets `now + l`. -/
def write (id : LeafId) (slot : Slot V) (now : Stamp) : {h : Nat} → Table V h → Table V h
  | 0, (b : Block V) => (⟨now, b.slots.set id.place slot⟩ : Block V)
  | h + 1, (p : Page (Table V h)) =>
    (⟨now + (h + 1), p.children.modify (id.branch h) (write id slot now)⟩ : Page (Table V h))

/-- Make room for a slot never used before: add the tables that its path still lacks. Every table on
the way gets a new stamp. A page is filled from the left, so its missing child is the next one. -/
def extend (id : LeafId) (now : Stamp) : {h : Nat} → Table V h → Except Fault (Table V h)
  | 0, (b : Block V) => .ok (⟨now, b.slots⟩ : Block V)
  | h + 1, (p : Page (Table V h)) => do
    let i := id.branch h
    let children := if i = p.children.size then p.children.push (empty V now h) else p.children
    match children[i]? with
    | none => throw (.outOfRange i children.size)
    | some child =>
      let child ← extend id now child
      return (⟨now + (h + 1), children.setIfInBounds i child⟩ : Page (Table V h))

end Table

/-- A table together with its number of page levels. -/
structure Tower (V : Type) where
  height : Nat
  table : Table V height

end OrderedStore
