import OrderedStore.Pool.Table

/-!
# Leaf pools

A pool hands out slots for leaves and takes them back. Slots given back are handed out again, last
freed first, before a new one is opened; a new one is always the next number. When the tower is full
its root becomes the first child of a new root, so every earlier slot keeps its number and its tables.
-/

namespace OrderedStore

/-- Leaves in numbered slots. -/
structure Pool (V : Type) where
  root : Option (Tower V) := none
  /-- The slot freed last. Vacant slots lead on from there, each to the one freed before it. -/
  free : Link := none
  /-- How many slots were ever opened; also the number of the next one. -/
  opened : Nat := 0
  /-- How many leaves are live. -/
  live : Nat := 0

namespace Pool

variable {V : Type}

/-- A pool that has never held a leaf. -/
def empty : Pool V := {}

/-- Slot numbers stop here: the last 32-bit number is kept to mean "no leaf". -/
def slotLimit : Nat := 0xffffffff

/-- Page levels above the blocks. -/
def height (p : Pool V) : Nat := p.root.elim 0 Tower.height

/-- How many slots the tower has room for. -/
def capacity (p : Pool V) : Nat := p.root.elim 0 fun t => 64 * Nat.pow 32 t.height

/-- The slot numbered `id`, if the tower reaches it. -/
def slot? (p : Pool V) (id : LeafId) : Option (Slot V) :=
  p.root.bind fun t => if id.fits t.height then t.table.slot? id else none

/-- The live leaf in a slot. -/
def leaf? (p : Pool V) (id : LeafId) : Option (Leaf V) := (p.slot? id).bind Slot.leaf?

/-- The leaf a link leads to. The end of a chain leads nowhere. -/
def get (p : Pool V) (link : Link) : Except Fault (Leaf V) :=
  match link.bind p.leaf? with
  | some leaf => .ok leaf
  | none => .error (.dangling link)

def nextOf (p : Pool V) (link : Link) : Except Fault Link := return (← p.get link).next

def prevOf (p : Pool V) (link : Link) : Except Fault Link := return (← p.get link).prev

/-- Write a slot that exists, giving every table on its path a new stamp. -/
def write (p : Pool V) (id : LeafId) (slot : Slot V) : Edit (Pool V) := do
  match p.root with
  | none => return p
  | some t =>
    let now ← Edit.draw (t.height + 1)
    return { p with root := some ⟨t.height, t.table.write id slot now⟩ }

/-- Change the leaf a link leads to. -/
def modify (p : Pool V) (link : Link) (f : Leaf V → Leaf V) : Edit (Pool V) := do
  let leaf ← p.get link
  match link with
  | none => return p
  | some id => p.write id (.live (f leaf))

/-- The tower with one more level if `id` is past its end, and with a block for `id`. -/
def grow (root : Option (Tower V)) (id : LeafId) : Edit (Tower V) := do
  let tower : Tower V ← match root with
    | none => pure ⟨0, Table.empty V (← Edit.fresh) 0⟩
    | some t =>
      if id.fits t.height then pure t
      else pure ⟨t.height + 1, (⟨← Edit.fresh, #[t.table]⟩ : Page (Table V t.height))⟩
  let now ← Edit.draw (tower.height + 1)
  return ⟨tower.height, ← tower.table.extend id now⟩

/-- Open the next slot. -/
def openSlot (p : Pool V) : Edit (LeafId × Pool V) := do
  if p.opened ≥ slotLimit then throw .poolExhausted
  let id : LeafId := ⟨p.opened⟩
  let tower ← grow p.root id
  return (id, { p with root := some tower, opened := p.opened + 1 })

/-- Store an unlinked leaf: in the slot freed last, or else in a new one. -/
def put (p : Pool V) (key : Bytes) (value : V) : Edit (LeafId × Pool V) := do
  let (id, p) ← match p.free with
    | some id => pure (id, p)
    | none => p.openSlot
  match p.slot? id with
  | none => throw (.dangling id)
  | some (.live _) => throw (.liveSlotOnFreeList id)
  | some (.vacant next) =>
    let p ← p.write id (.live ⟨key, value, none, none⟩)
    return (id, { p with free := if p.free = some id then next else p.free, live := p.live + 1 })

/-- Free the slot of a leaf and answer the leaf. Its links are not looked at. -/
def vacate (p : Pool V) (link : Link) : Edit (Leaf V × Pool V) := do
  match link with
  | none => throw (.dangling none)
  | some id =>
    match p.slot? id with
    | none => throw (.dangling id)
    | some (.vacant _) => throw (.alreadyVacant id)
    | some (.live leaf) =>
      let p ← p.write id (.vacant p.free)
      return (leaf, { p with free := some id, live := p.live - 1 })

end Pool

end OrderedStore
