import OrderedStore.Store.Transaction

/-!
# Stores

A store has one writer and any number of readers. The writer changes its own keyspace; readers see the
published one. A transaction that changed something and did not give up raises the generation by one and
publishes the writer's keyspace. One that gave up puts the writer back to what is published. One that
changed nothing publishes nothing.

Publishing a keyspace costs nothing, for keyspaces are values: a snapshot is the published keyspace at
the time, and later writes share with it all that they do not touch.
-/

namespace OrderedStore

/-- A store with one writer. -/
structure Store where
  /-- The writer's state. -/
  working : Keyspace
  /-- What readers see. -/
  published : Keyspace
  /-- The next unused stamp. -/
  supply : Stamp

namespace Store

/-- A store without entries. -/
def empty (config : Config := {}) : Store :=
  let space := Keyspace.empty config 0
  { working := space, published := space, supply := 2 }

/-- The state as of the last commit. -/
def snapshot (s : Store) : Keyspace := s.published

/-- Publish a keyspace as the next generation. -/
def commit (s : Store) (space : Keyspace) : Store :=
  let space := { space with generation := space.generation + 1 }
  { s with working := space, published := space }

/-- What becomes of a store when an operation ends well. -/
def finish (s : Store) (t : Transaction) (supply : Stamp) : Store :=
  let s := { s with supply }
  if t.changed then s.commit t.space else { s with working := t.space }

/-- What becomes of a store when an operation gives up. What the writer drew from the supply is in no
state that is left, so it is given back. -/
def rollback (s : Store) : Store := { s with working := s.published }

/-- Run a transaction. -/
def transaction {ε α : Type} (s : Store) (body : Program ε α) :
    Except Fault (Except ε α × Store) := do
  let ((result, t), supply) ← (body.run { space := s.working }).run s.supply
  match result with
  | .error e => return (.error e, s.rollback)
  | .ok answer => return (.ok answer, s.finish t supply)

/-! ## Single writes -/

/-- A write that cannot be refused, as a transaction of its own. -/
def write (s : Store) (c : Command) : Except Fault (c.Answer × Store) := do
  let ((answer, t), supply) ← (({ space := s.working } : Transaction).perform c).run s.supply
  return (answer, s.finish t supply)

/-- The body that makes one write and gives up if it is refused. -/
def orFail {ε α : Type} : Except ε α → Program ε α
  | .ok answer => .done answer
  | .error e => .fail e

/-- Store a value under a key. Answers the value it replaces. -/
def set (s : Store) (key value : Bytes) : Except Fault (Except InputError (Option Bytes) × Store) :=
  s.transaction (.write (.set key value) orFail)

/-- Remove a key. Answers its value. -/
def delete (s : Store) (key : Bytes) : Except Fault (Option Bytes × Store) := s.write (.delete key)

/-- Remove every key that starts with the given bytes. Answers how many there were. -/
def deleteUnder (s : Store) (start : Bytes) : Except Fault (Nat × Store) := s.write (.deleteUnder start)

/-- Add members to a scored set. Answers how many are new. -/
def addMembers (s : Store) (key : Bytes) (items : List (ScoredSet.Item Bytes)) :
    Except Fault (Except InputError Nat × Store) :=
  s.transaction (.write (.addMembers key items) orFail)

/-- Remove members from a scored set. Answers how many there were. -/
def removeMembers (s : Store) (key : Bytes) (members : List Bytes) : Except Fault (Nat × Store) :=
  s.write (.removeMembers key members)

/-- Drop a scored set. Answers whether there was one. -/
def dropSet (s : Store) (key : Bytes) : Except Fault (Bool × Store) := s.write (.dropSet key)

end Store

end OrderedStore
