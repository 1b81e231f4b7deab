import OrderedStore.Pool.Basic

/-!
# What two versions of a pool share

A later version of a pool is compared with an earlier one table by table. Tables at the same place
are one table when their stamps agree, and then everything below them is shared too. When the tower
has grown, the earlier root is looked for at the first child of every added level.
-/

namespace OrderedStore

namespace Tower

variable {V : Type}

/-- The children of the root, each with the tables below it; a block has none. -/
def children : Tower V → List (Tower V)
  | ⟨0, _⟩ => []
  | ⟨h + 1, (p : Page (Table V h))⟩ => p.children.toList.map (⟨h, ·⟩)

end Tower

namespace Table

variable {V : Type}

/-- How many tables of a tower are not the table at the same place of an earlier one. `lift` is the
number of levels that still lie above the place where the earlier root is to be looked for. -/
def unsharedWith : {h : Nat} → Table V h → (earlier : Option (Tower V)) → (lift : Nat) → Nat
  | 0, b, earlier, lift =>
    if lift = 0 ∧ earlier.map (·.table.stamp) = some (Table.stamp b) then 0 else 1
  | _ + 1, (p : Page _), earlier, lift =>
    if lift = 0 ∧ earlier.map (·.table.stamp) = some p.stamp then 0
    else
      let before (i : Nat) : Option (Tower V) :=
        if lift = 0 then earlier.bind (·.children[i]?)
        else if i = 0 then earlier
        else none
      1 + (p.children.toList.zipIdx.map fun (child, i) =>
        unsharedWith child (before i) (lift - 1)).foldr (· + ·) 0

end Table

namespace Pool

variable {V : Type}

/-- How many blocks and pages are not shared with an earlier version of the pool. -/
def unsharedWith (p earlier : Pool V) : Nat :=
  match p.root with
  | none => 0
  | some t => t.table.unsharedWith earlier.root (t.height - earlier.height)

end Pool

end OrderedStore
