import OrderedStore.Damage.ScoredSet
import OrderedStore.Store.Basic

/-!
# Damaging a store

The writer's state can be damaged in place. What is published, and every snapshot, stays as it is: a
transaction that gives up undoes the damage, and a commit publishes it.
-/

namespace OrderedStore

/-- A write to one part of the writer's state. -/
inductive StoreDamage
  | inValues (d : TrieDamage)
  /-- Damage the map of scored sets. -/
  | inSets (d : TrieDamage)
  | inSet (key : Bytes) (d : SetDamage)

namespace Store

/-- Change the writer's state behind the back of every transaction. -/
def tamper {α : Type} (s : Store) (edit : Keyspace → Edit (α × Keyspace)) : Except Fault (α × Store) := do
  let ((answer, working), supply) ← (edit s.working).run s.supply
  return (answer, { s with working, supply })

/-- Write one part of the writer's state. -/
def damage (s : Store) (d : StoreDamage) : Except Fault Store := do
  let ((), s) ← s.tamper fun k => do
    match d with
    | .inValues d => return ((), { k with values := ← k.values.damage [] d })
    | .inSets d => do
      let fill ← ScoredSet.empty Bytes k.config.keyLimit
      return ((), { k with sets := ← k.sets.damage fill d })
    | .inSet key d =>
      match ← k.set? key with
      | none => return ((), k)
      | some z => do
        let z ← z.damage [] d
        return ((), { k with sets := (← k.sets.modify? key fun _ => z).getD k.sets })
  return s

/-- Store an empty scored set under a key. Answers whether there was one before. -/
def plantEmptySet (s : Store) (key : Bytes) : Except Fault (Bool × Store) :=
  s.tamper fun k => do
    let (old, sets) ← k.sets.put key (← ScoredSet.empty Bytes k.config.keyLimit)
    return (old.isSome, { k with sets })

end Store

end OrderedStore
