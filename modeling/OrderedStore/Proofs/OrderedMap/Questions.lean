import Mathlib.Tactic
import OrderedStore.OrderedMap.Report
import OrderedStore.Proofs.OrderedMap.Audit
import OrderedStore.Proofs.OrderedMap.Cursors
import OrderedStore.Scan

/-!
# Every question to a map has an answer

The reads of a map as one family of questions: look-ups, walks over any stretch taken from both ends in any
order, cursors, pages of a scan, audits and reports. A map that stands for a finite map answers all of them.
-/

namespace OrderedStore

variable {V : Type}

namespace Trace

theorem next?_ofList {α : Type} (as : List α) :
    (ofList as).next? = .ok (as.head?.map fun a => (a, ofList as.tail)) := by
  cases as <;> rfl

end Trace

namespace OrderedMap

/-- A question to a map. -/
inductive Query (V : Type)
  | get (key : Bytes)
  | contains (key : Bytes)
  | longest (key : Bytes)
  | first
  | last
  | size
  | entries (part : Stretch)
  | drive (part : Stretch) (steps : List Bool)
  | cursor (moves : List Cursor.Move)
  | cursorFrom (key : Bytes) (moves : List Cursor.Move)
  | scan (cursor : UInt32) (start : Bytes) (count : Nat)
  | issues
  | describe (showValue : V → String)
  | outline (showValue : V → String)

/-- The answer to a question. -/
def Query.Answer : Query V → Type
  | get _ => Option V
  | contains _ => Bool
  | longest _ => Option (Leaf V)
  | first => Option (Leaf V)
  | last => Option (Leaf V)
  | size => Nat
  | entries _ => List (Leaf V)
  | drive .. => List (Option (Leaf V))
  | cursor _ => List (Option (Leaf V))
  | cursorFrom .. => List (Option (Leaf V))
  | scan .. => ScanPage V
  | issues => List Issue
  | describe _ => String
  | outline _ => String

/-- What a map answers. -/
def ask (m : OrderedMap V) : (q : Query V) → Except Fault q.Answer
  | .get key => m.get? key
  | .contains key => .ok (m.contains key)
  | .longest key => m.longest? key
  | .first => m.first?
  | .last => m.last?
  | .size => .ok m.size
  | .entries part => (m.walkOver part).toList
  | .drive part steps => (m.walkOver part).drive steps
  | .cursor moves => m.cursor.drive moves
  | .cursorFrom key moves => (m.cursorFrom key).drive moves
  | .scan cursor start count => m.scan cursor start count
  | .issues => m.issues
  | .describe showValue => m.describe showValue
  | .outline showValue => m.outline showValue

variable {m : OrderedMap V} {es : List (Entry V)}

/-! ## Scans -/

/-- To pass over entries leaves a list of entries, or nothing. -/
theorem resume?_ofList (cursor : UInt32) (leaves : List (Leaf V)) :
    ∃ rest, resume? cursor (.ofList leaves) = .ok (Option.map Trace.ofList rest) := by
  unfold resume?
  by_cases hstart : cursor = scanStart
  · rw [if_pos hstart]
    exact ⟨some leaves, rfl⟩
  · rw [if_neg hstart, Trace.dropWhile_ofList, Trace.next?_ofList]
    cases leaves.dropWhile (fingerprint ·.key != cursor) with
    | nil => exact ⟨none, rfl⟩
    | cons leaf rest => exact ⟨some rest, rfl⟩

theorem Holds.scan_succeeds (h : m.Holds es) (cursor : UInt32) (start : Bytes) (count : Nat) :
    Succeeds (m.scan cursor start count) := by
  unfold scan
  by_cases hzero : count = 0
  · rw [if_pos hzero]
    exact Succeeds.ok
  · rw [if_neg hzero]
    obtain ⟨ms, hcovers, -⟩ := h.walkOver_covers (.under start)
    obtain ⟨leaves, htrace, -⟩ := hcovers.trace (Nat.lt_add_right count hcovers.length_lt_fuel)
    obtain ⟨rest, hresume⟩ := resume?_ofList cursor leaves
    dsimp only [walkOver] at htrace
    dsimp only
    rw [htrace, hresume]
    cases rest with
    | none => exact Succeeds.ok
    | some rest =>
        show Succeeds ((Trace.take count (.ofList rest)).toList >>= _)
        rw [Trace.take_ofList, Trace.toList_ofList]
        show Succeeds ((Trace.drop count (.ofList rest)).next? >>= _)
        rw [Trace.drop_ofList, Trace.next?_ofList]
        refine Succeeds.bind Succeeds.ok fun more _ => ?_
        split <;> exact Succeeds.ok

/-! ## Reports -/

/-- The outline of a node reads the leaves below it, by induction on the node. -/
theorem outline_succeeds (n : Node) {leaves : Pool V} {showValue : V → String} {depth : Nat} {above : Bytes}
    (hp : n.Placed leaves above) : Succeeds (n.outline leaves showValue depth) := by
  have hbelow : Succeeds (n.edges.attach.mapM fun e => e.1.child.outline leaves showValue (depth + 1)) :=
    Succeeds.mapM fun e _ => outline_succeeds e.1.child (hp.child e.2)
  rw [Node.outline]
  cases hleaf : n.leaf with
  | none => exact hbelow.bind fun _ _ => Succeeds.ok
  | some link =>
      obtain ⟨leaf, hget, -⟩ := hp n.segment link ⟨n, .here n, hleaf⟩
      dsimp only
      rw [hget]
      exact hbelow.bind fun _ _ => Succeeds.ok
termination_by sizeOf n
decreasing_by exact Node.sizeOf_child_lt e.2

theorem Holds.toList_succeeds (h : m.Holds es) (part : Stretch) : Succeeds (m.walkOver part).toList := by
  obtain ⟨ms, hcovers, -⟩ := h.walkOver_covers part
  obtain ⟨leaves, hlist, -⟩ := hcovers.toList
  exact ⟨leaves, hlist⟩

/-- **A map that stands for a finite map answers every question.** -/
theorem Represents.ask_succeeds {limit : Nat} {s : FiniteMap V} (h : Represents limit m s) (q : Query V) :
    Succeeds (m.ask q) := by
  obtain ⟨-, es, hm, hs⟩ := id h
  cases q with
  | get key => exact ⟨s.value key, h.agrees.get? key⟩
  | contains key => exact Succeeds.ok
  | longest key =>
      obtain ⟨met, hlongest, -⟩ := h.longest?_eq key
      exact ⟨met, hlongest⟩
  | first =>
      obtain ⟨met, hfirst, -⟩ := hm.first?_eq
      exact ⟨met, hfirst⟩
  | last =>
      obtain ⟨met, hlast, -⟩ := hm.last?_eq
      exact ⟨met, hlast⟩
  | size => exact Succeeds.ok
  | entries part => exact hm.toList_succeeds part
  | drive part steps =>
      obtain ⟨ms, hcovers, -⟩ := hm.walkOver_covers part
      obtain ⟨met, hdrive, -⟩ := hcovers.drive steps
      exact ⟨met, hdrive⟩
  | cursor moves =>
      obtain ⟨met, hdrive, -⟩ := hm.cursor_stands.drive moves
      exact ⟨met, hdrive⟩
  | cursorFrom key moves =>
      obtain ⟨met, hdrive, -⟩ := (hm.cursorFrom_stands key).drive moves
      exact ⟨met, hdrive⟩
  | scan cursor start count => exact hm.scan_succeeds cursor start count
  | issues => exact ⟨[], hm.issues_eq⟩
  | describe showValue => exact (hm.toList_succeeds .all).bind fun _ _ => Succeeds.ok
  | outline showValue =>
      exact (outline_succeeds m.trie.root (hm.trie.placed hm.chained_alone)).bind fun _ _ => Succeeds.ok

end OrderedMap

end OrderedStore
