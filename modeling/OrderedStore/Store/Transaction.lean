import OrderedStore.Store.Keyspace

/-!
# Transactions

There are six ways to write to a keyspace. A transaction makes any number of them, one after another,
on the writer's own state, sees each answer and every earlier write, and ends by answering or by giving
up. What it does next may depend on everything it has seen, so its body is a tree: each step leads to
one continuation for every answer.

A transaction remembers whether any step changed something. A step that changes nothing leaves the
keyspace as it is, down to the pieces it shares with other versions.
-/

namespace OrderedStore

/-- A write to a keyspace. -/
inductive Command
  /-- Store a value under a key. -/
  | set (key value : Bytes)
  /-- Remove a key. -/
  | delete (key : Bytes)
  /-- Remove every key that starts with the given bytes. -/
  | deleteUnder (start : Bytes)
  /-- Add members to a scored set, which is made on first use. -/
  | addMembers (key : Bytes) (items : List (ScoredSet.Item Bytes))
  /-- Remove members from a scored set, which is dropped once it is empty. -/
  | removeMembers (key : Bytes) (members : List Bytes)
  /-- Drop a scored set. -/
  | dropSet (key : Bytes)

/-- What a write answers: the value replaced or removed, a count, or whether there was anything. -/
def Command.Answer : Command → Type
  | set .. => Except InputError (Option Bytes)
  | delete .. => Option Bytes
  | deleteUnder .. => Nat
  | addMembers .. => Except InputError Nat
  | removeMembers .. => Nat
  | dropSet .. => Bool

/-- The writer's state in the middle of a transaction. -/
structure Transaction where
  space : Keyspace
  changed : Bool := false

namespace Transaction

/-- Replace the map of values by one that differs. -/
def withValues (t : Transaction) (values : OrderedMap Bytes) : Transaction :=
  { space := { t.space with values }, changed := true }

/-- Replace the map of scored sets by one that differs. -/
def withSets (t : Transaction) (sets : OrderedMap (ScoredSet Bytes)) : Transaction :=
  { space := { t.space with sets }, changed := true }

def set (t : Transaction) (key value : Bytes) :
    Edit (Except InputError (Option Bytes) × Transaction) := do
  match KeyRules.check t.space.config key with
  | .error e => return (.error e, t)
  | .ok () =>
    match ← t.space.values.insert key value with
    | .error e => return (.error e, t)
    | .ok (old, values) => return (.ok old, t.withValues values)

def delete (t : Transaction) (key : Bytes) : Edit (Option Bytes × Transaction) := do
  let (old, values) ← t.space.values.erase key
  return (old, if old.isSome then t.withValues values else t)

def deleteUnder (t : Transaction) (start : Bytes) : Edit (Nat × Transaction) := do
  let (count, values) ← t.space.values.eraseUnder start
  return (count, if count > 0 then t.withValues values else t)

/-- Add members to a scored set. The key and the whole batch are looked at before anything is written, and
the set is taken for writing only once the batch is accepted. Taken before, it would leave the writer with
copies of the tables on the set's path after a refusal: the same contents, and only the identity of the
writer's own tables would differ. -/
def addMembers (t : Transaction) (key : Bytes) (items : List (ScoredSet.Item Bytes)) :
    Edit (Except InputError Nat × Transaction) := do
  match KeyRules.check t.space.config key with
  | .error e => return (.error e, t)
  | .ok () =>
    if items.isEmpty then return (.ok 0, t)
    let old ← t.space.set? key
    let z ← match old with
      | some z => pure z
      | none => ScoredSet.empty Bytes t.space.config.keyLimit
    match ← z.insertAll items with
    | .error e => return (.error e, t)
    | .ok (count, z) =>
      if old.isSome then
        let sets := (← t.space.sets.modify? key fun _ => z).getD t.space.sets
        return (.ok count, t.withSets sets)
      else
        match ← t.space.sets.insert key z with
        | .error e => return (.error e, t)
        | .ok (_, sets) => return (.ok count, t.withSets sets)

def removeMembers (t : Transaction) (key : Bytes) (members : List Bytes) : Edit (Nat × Transaction) := do
  match ← t.space.set? key with
  | none => return (0, t)
  | some z =>
    let present ← members.filterM fun m => do pure (← z.score? m).isSome
    if present.isEmpty then return (0, t)
    let (count, z) ← z.eraseAll present
    let sets := (← t.space.sets.modify? key fun _ => z).getD t.space.sets
    if z.isEmpty then
      let (_, sets) ← sets.erase key
      return (count, t.withSets sets)
    else return (count, t.withSets sets)

def dropSet (t : Transaction) (key : Bytes) : Edit (Bool × Transaction) := do
  let (old, sets) ← t.space.sets.erase key
  return (old.isSome, if old.isSome then t.withSets sets else t)

/-- Make one write. -/
def perform (t : Transaction) : (c : Command) → Edit (c.Answer × Transaction)
  | .set key value => t.set key value
  | .delete key => t.delete key
  | .deleteUnder start => t.deleteUnder start
  | .addMembers key items => t.addMembers key items
  | .removeMembers key members => t.removeMembers key members
  | .dropSet key => t.dropSet key

end Transaction

/-- The body of a transaction that ends with an answer or gives up for a reason. -/
inductive Program (ε α : Type)
  /-- End with an answer. -/
  | done (answer : α)
  /-- Give up. -/
  | fail (reason : ε)
  /-- Stop at a fault met while reading. -/
  | stop (fault : Fault)
  /-- Read the writer's state and go on. -/
  | read (next : Keyspace → Program ε α)
  /-- Write and go on. -/
  | write (c : Command) (next : c.Answer → Program ε α)

/-- Run the body of a transaction. -/
def Program.run {ε α : Type} : Program ε α → Transaction → Edit (Except ε α × Transaction)
  | done answer, t => return (.ok answer, t)
  | fail reason, t => return (.error reason, t)
  | stop fault, _ => throw fault
  | read next, t => (next t.space).run t
  | write c next, t => do
    let (answer, t) ← t.perform c
    (next answer).run t

end OrderedStore
