import OrderedStore.OrderedMap.Basic

/-!
# Scans

A scan pages through the entries under some beginning without keeping anything between two pages. The
cursor handed back is a 32-bit fingerprint of the last key of the page; the next page walks the entries
again, passes over everything up to the first key with that fingerprint, and goes on behind it. So a
cursor stays usable while keys come and go, at a price: when keys go, or two share a fingerprint, a scan
can skip or repeat entries.
-/

namespace OrderedStore

/-- The cursor that starts a scan, and that a finished scan hands back. -/
def scanStart : UInt32 := 0

/-- The fingerprint of a key: each byte is mixed in by exclusive or and spread by multiplication with a
prime. A key whose fingerprint would be the starting cursor gets the one after it. -/
def fingerprint (key : Bytes) : UInt32 :=
  let hash := key.foldl (fun hash b => (hash ^^^ b.toUInt32) * 0x01000193) 0x811c9dc5
  if hash = scanStart then 1 else hash

/-- One page of a scan. -/
structure ScanPage (V : Type) where
  entries : List (Leaf V)
  /-- Where the next page goes on; the starting cursor once the scan is over. -/
  cursor : UInt32

/-- Whether the scan is over. -/
def ScanPage.isDone {V : Type} (page : ScanPage V) : Bool := page.cursor == scanStart

namespace OrderedMap

variable {V : Type}

/-- Pass over the entries up to and including the one the cursor stands for. Nothing if there is none. -/
def resume? (cursor : UInt32) (t : Trace (Leaf V)) : Except Fault (Option (Trace (Leaf V))) := do
  if cursor = scanStart then return some t
  let found ← (t.dropWhile (fingerprint ·.key != cursor)).next?
  return found.map Prod.snd

/-- Up to `count` entries whose key starts with the given bytes, going on where the cursor says. A
page of no entries hands the cursor back; a cursor that stands for no entry ends the scan. -/
def scan (m : OrderedMap V) (cursor : UInt32) (start : Bytes) (count : Nat) : Except Fault (ScanPage V) := do
  if count = 0 then return ⟨[], cursor⟩
  let walk := m.walkUnder start
  match ← resume? cursor (walk.trace (walk.fuel + count)) with
  | none => return ⟨[], scanStart⟩
  | some t =>
    let entries ← (t.take count).toList
    let more ← (t.drop count).next?
    match entries.getLast?, more with
    | some leaf, some _ => return ⟨entries, fingerprint leaf.key⟩
    | _, _ => return ⟨entries, scanStart⟩

end OrderedMap

end OrderedStore
