import OrderedStore.Fault

/-!
# Stamps

Versions of a structure share what no later write has touched. Which pieces two versions share is
itself an answer of this library, so every shareable piece carries a *stamp*, its identity: a piece
gets a stamp never used before whenever it is created and whenever it is written. Two pieces with one
stamp are one piece.

Stamps come from a supply that only moves forward. `Edit` is a computation that may draw from it and
may end in a fault.
-/

namespace OrderedStore

/-- The identity of a shareable piece. -/
abbrev Stamp := Nat

/-- A computation that may draw stamps and may end in a fault. Its state is the next unused stamp. -/
abbrev Edit := StateT Stamp (Except Fault)

namespace Edit

/-- Draw `count` consecutive stamps and answer the first of them. -/
def draw (count : Nat) : Edit Stamp := fun next => .ok (next, next + count)

/-- Draw one stamp. -/
def fresh : Edit Stamp := draw 1

end Edit

end OrderedStore
