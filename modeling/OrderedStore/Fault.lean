import OrderedStore.Binary64.Basic

/-!
# Faults

Two kinds of trouble are told apart. An *input error* is the caller's: a key too long, a score that is
no number. It is an ordinary answer and changes nothing. A *fault* is the store's own: a link that
leads to no leaf, a member without its bucket. On a sound store no fault arises; on a damaged one the
first fault met ends the operation.
-/

namespace OrderedStore

/-- Names a slot of a leaf pool. -/
structure LeafId where
  index : Nat
  deriving DecidableEq, Repr, Inhabited

/-- A reference to a leaf, or the end of a chain. -/
abbrev Link := Option LeafId

/-- A broken internal invariant. -/
inductive Fault
  /-- A link was followed to no live leaf. -/
  | dangling (link : Link)
  /-- A slot that is already vacant was freed. -/
  | alreadyVacant (id : LeafId)
  /-- The free list led to a live slot. -/
  | liveSlotOnFreeList (id : LeafId)
  /-- Every slot number has been handed out. -/
  | poolExhausted
  /-- A run of leaves ended before the leaf that should be its last. -/
  | runCutShort
  /-- Two edges of one node would share a label. -/
  | duplicateLabel (label : UInt8)
  /-- A position past the end of a page, an edge list or a segment. -/
  | outOfRange (index size : Nat)
  /-- A word that is no number was used as a sorting score. -/
  | unorderedScore
  /-- A member of a scored set is not in the bucket of its score. -/
  | memberNotInBucket
  /-- A scored set has no bucket for a score that one of its members has. -/
  | noBucket (score : Binary64)
  /-- The links followed form a circle, so a walk along them has no end. -/
  | endless
  deriving DecidableEq, Repr

/-- A request that the caller should not have made. It changes nothing. -/
inductive InputError
  | keyTooLong (length limit : Nat)
  | controlByte (byte : UInt8) (offset : Nat)
  | malformedStructure
  | invalidScore (text : String)
  | invalidCursor (text : String)
  | invalidPattern
  deriving DecidableEq, Repr

end OrderedStore
