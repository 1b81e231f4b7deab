import OrderedStore.OrderedMap.Audit
import OrderedStore.Scan
import OrderedStore.ScoredSet.Audit
import OrderedStore.ScoredSet.Range
import OrderedStore.Store.KeyRules
import OrderedStore.Text.Quoted

/-!
# Keyspaces

A keyspace is one consistent state of a store: a map from keys to values and, beside it, a map from keys
to scored sets. The two share no names. The writer's own state, the published state and every snapshot
are keyspaces, so they are all read in the same way.
-/

namespace OrderedStore

/-- One state of a store. -/
structure Keyspace where
  values : OrderedMap Bytes
  sets : OrderedMap (ScoredSet Bytes)
  /-- How many commits led to this state. -/
  generation : Nat := 0
  config : Config

namespace Keyspace

/-- The state of a new store, given the first of two unused stamps. -/
def empty (config : Config) (now : Stamp) : Keyspace :=
  { values := .empty Bytes now config.keyLimit
    sets := .empty (ScoredSet Bytes) (now + 1) config.keyLimit
    config }

/-! ## Values -/

/-- How many keys there are. -/
def size (k : Keyspace) : Nat := k.values.size

def isEmpty (k : Keyspace) : Bool := k.values.isEmpty

def get? (k : Keyspace) (key : Bytes) : Except Fault (Option Bytes) := k.values.get? key

def contains (k : Keyspace) (key : Bytes) : Bool := k.values.contains key

/-- The entry of the longest key that the given one starts with. -/
def longest? (k : Keyspace) (key : Bytes) : Except Fault (Option (Leaf Bytes)) := k.values.longest? key

/-- The keys that fit a pattern, in key order. -/
def matchingKeys (read? : String → Option (Bytes → Bool)) (k : Keyspace) (pattern : String) :
    Except Fault (Except InputError (List Bytes)) :=
  match k.values.walkFitting read? [] pattern with
  | .error e => .ok (.error e)
  | .ok walk => return .ok ((← walk.toList).map Leaf.key)

/-- The cursor that a text stands for: a number of 32 bits, with white space around it and a plus sign
before it allowed. -/
def readCursor (text : String) : Except InputError UInt32 :=
  let digits := match Blank.trim text.toList with
    | '+' :: s => s
    | s => s
  match Decimal.read? digits with
  | some n => if n < 0x100000000 then .ok (UInt32.ofNat n) else .error (.invalidCursor text)
  | none => .error (.invalidCursor text)

/-- One page of the keys that start with the given bytes. The cursor is the text of the one that the
page before handed back. -/
def scan (k : Keyspace) (cursor : String) (start : Bytes) (count : Option Nat) :
    Except Fault (Except InputError (ScanPage Bytes)) :=
  match readCursor cursor with
  | .error e => .ok (.error e)
  | .ok cursor => return .ok (← k.values.scan cursor start (count.getD k.config.scanCount))

/-! ## Scored sets -/

/-- How many scored sets there are. -/
def setCount (k : Keyspace) : Nat := k.sets.size

/-- The scored set under a key. -/
def set? (k : Keyspace) (key : Bytes) : Except Fault (Option (ScoredSet Bytes)) := k.sets.get? key

/-- How many members the set under a key has; none if there is no such set. -/
def card (k : Keyspace) (key : Bytes) : Except Fault Nat :=
  return ((← k.set? key).map ScoredSet.card).getD 0

/-- The score of a member. -/
def score? (k : Keyspace) (key member : Bytes) : Except Fault (Option Binary64) := do
  match ← k.set? key with
  | none => return none
  | some z => z.score? member

/-- The members of a set that start with the given bytes. -/
def rangeUnder (k : Keyspace) (key start : Bytes) (opts : RangeQuery) :
    Except Fault (List (RangeRow Bytes)) := do
  match ← k.set? key with
  | none => return []
  | some z => z.rangeUnder start opts

/-- The members of a set between two bounds. -/
def rangeBetween (k : Keyspace) (key : Bytes) (min max : ScoreBound) (opts : RangeQuery) :
    Except Fault (List (RangeRow Bytes)) := do
  match ← k.set? key with
  | none => return []
  | some z => z.rangeBetween min max opts

/-! ## Reports -/

/-- Something that a sound keyspace does not show. -/
inductive Issue
  | inMap (issue : OrderedMap.Issue)
  | emptySet (key : Bytes)
  | inSet (key : Bytes) (issue : ScoredSet.Issue)
  deriving DecidableEq, Repr

def Issue.text : Issue → String
  | inMap issue => issue.text
  | emptySet key => "empty sorted set kept at " ++ Quoted.ofBytes key
  | inSet key issue => String.ofList (Utf8.lossy key) ++ ": " ++ issue.text

/-- What one scored set shows. -/
def setIssues (entry : Leaf (ScoredSet Bytes)) : Except Fault (List Issue) := do
  let inSet ← entry.value.issues
  return (if entry.value.isEmpty then [.emptySet entry.key] else []) ++ inSet.map (.inSet entry.key)

/-- Everything an audit of both maps and of every scored set reports. -/
def issues (k : Keyspace) : Except Fault (List Issue) := do
  let values ← k.values.issues
  let sets ← k.sets.issues
  let found ← k.sets.walk.mapM setIssues
  return (values ++ sets).map .inMap ++ found.flatten

/-- A keyspace by its numbers. -/
def describe (k : Keyspace) : String :=
  "Keyspace \x7b generation: " ++ toString k.generation ++ ", keys: " ++ toString k.size ++ ", zsets: " ++
    toString k.setCount ++ " \x7d"

end Keyspace

end OrderedStore
