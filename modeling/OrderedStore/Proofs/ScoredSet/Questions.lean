import Mathlib.Tactic
import OrderedStore.Proofs.Acts
import OrderedStore.Proofs.ScoredSet.Audit
import OrderedStore.Proofs.ScoredSet.Range
import OrderedStore.Proofs.ScoredSet.Refines
import OrderedStore.Proofs.Walk.Drive

/-!
# Every question to a scored set has an answer

The reads of a scored set as one family of questions: look-ups, the walk in score order taken from both ends in
any order, ranges with any bounds, audits and reports. A set that stands for a finite map of members answers all
of them.
-/

namespace OrderedStore.ScoredSet

variable {V : Type}

/-- A question to a scored set. -/
inductive Query
  | card
  | bucketCount
  | get (member : Bytes)
  | score (member : Bytes)
  | first
  | last
  | drive (steps : List Bool)
  | rangeUnder (start : Bytes) (opts : RangeQuery)
  | rangeBetween (min max : ScoreBound) (opts : RangeQuery)
  | issues
  | describe

/-- The answer to a question. -/
def Query.Answer (V : Type) : Query → Type
  | card => Nat
  | bucketCount => Nat
  | get _ => Option (Scored V)
  | score _ => Option Binary64
  | first => Option (Leaf (Scored V))
  | last => Option (Leaf (Scored V))
  | drive _ => List (Option (Leaf (Scored V)))
  | rangeUnder .. => List (RangeRow V)
  | rangeBetween .. => List (RangeRow V)
  | issues => List Issue
  | describe => String

/-- What a scored set answers. -/
def ask (z : ScoredSet V) : (q : Query) → Except Fault (q.Answer V)
  | .card => .ok z.card
  | .bucketCount => .ok z.bucketCount
  | .get member => z.get? member
  | .score member => z.score? member
  | .first => z.first?
  | .last => z.last?
  | .drive steps => do (← z.walk).drive steps
  | .rangeUnder start opts => z.rangeUnder start opts
  | .rangeBetween min max opts => z.rangeBetween min max opts
  | .issues => z.issues
  | .describe => z.describe

/-- **A scored set that stands for a finite map answers every question**, ranges between any bounds included. -/
theorem Represents.ask_succeeds {limit : Nat} {z : ScoredSet V} {s : FiniteMap (Scored V)}
    (h : Represents limit z s) (q : Query) : Succeeds (z.ask q) := by
  obtain ⟨-, es, tiers, hz, hs⟩ := id h
  obtain ⟨w, hwalk, hreads⟩ := hz.tiered.shows.walk_reads
  cases q with
  | card => exact Succeeds.ok
  | bucketCount => exact Succeeds.ok
  | get member => exact ⟨s.value member, h.agrees.get? member⟩
  | score member => exact ⟨_, h.agrees.score? member⟩
  | first =>
      obtain ⟨met, hnext, -⟩ := hreads.next
      show Succeeds z.first?
      unfold first?
      rw [hwalk, Edit.ok_bind]
      exact Succeeds.bind ⟨met, hnext⟩ fun _ _ => Succeeds.ok
  | last =>
      obtain ⟨met, hback, -⟩ := hreads.nextBack
      show Succeeds z.last?
      unfold last?
      rw [hwalk, Edit.ok_bind]
      exact Succeeds.bind ⟨met, hback⟩ fun _ _ => Succeeds.ok
  | drive steps =>
      obtain ⟨met, hdrive, -⟩ := hreads.covers.drive steps
      show Succeeds (z.walk >>= Walk.drive steps)
      rw [hwalk, Edit.ok_bind]
      exact ⟨met, hdrive⟩
  | rangeUnder start opts => exact ⟨_, hz.rangeUnder_eq hs start opts⟩
  | rangeBetween min max opts => exact ⟨_, hz.rangeBetween_eq hs min max opts⟩
  | issues => exact ⟨[], hz.issues_eq⟩
  | describe =>
      obtain ⟨leaves, hlist, -⟩ := hreads.toList
      show Succeeds z.describe
      unfold ScoredSet.describe
      rw [hwalk, Edit.ok_bind]
      exact Succeeds.bind ⟨leaves, hlist⟩ fun _ _ => Succeeds.ok

end OrderedStore.ScoredSet
