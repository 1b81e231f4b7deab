import OrderedStore.Pool.Basic

/-!
# Cursors

A cursor stands on a leaf between a first and a last one and can step either way. Once it has stepped
off either end it stands nowhere, and stays so.
-/

namespace OrderedStore

/-- A position among the leaves of a pool. -/
structure Cursor (V : Type) where
  leaves : Pool V
  first : Link
  last : Link
  position : Link

namespace Cursor

variable {V : Type}

/-- The leaf the cursor stands on. -/
def current (c : Cursor V) : Except Fault (Option (Leaf V)) :=
  if c.position = none then .ok none else some <$> c.leaves.get c.position

/-- One step towards greater keys, and the leaf reached. -/
def next (c : Cursor V) : Except Fault (Option (Leaf V) × Cursor V) := do
  if c.position = none then return (none, c)
  let c ←
    if c.position = c.last then pure { c with position := none }
    else do pure { c with position := ← c.leaves.nextOf c.position }
  return (← c.current, c)

/-- One step towards smaller keys, and the leaf reached. -/
def prev (c : Cursor V) : Except Fault (Option (Leaf V) × Cursor V) := do
  if c.position = none then return (none, c)
  let c ←
    if c.position = c.first then pure { c with position := none }
    else do pure { c with position := ← c.leaves.prevOf c.position }
  return (← c.current, c)

end Cursor

end OrderedStore
