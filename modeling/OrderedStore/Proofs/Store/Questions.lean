import Mathlib.Tactic
import OrderedStore.Proofs.OrderedMap.Questions
import OrderedStore.Proofs.ScoredSet.Questions
import OrderedStore.Proofs.Store.Keyspace

/-!
# Every question to a keyspace has an answer

The reads of a keyspace as one family of questions: what the contents tell, and whatever its map of values and
its scored sets can be asked, down to the walks along their chains. A keyspace that stands for contents answers
all of them.
-/

namespace OrderedStore.Keyspace

/-- A question to a keyspace or to a part of it. -/
inductive Query
  | look (q : Lookup)
  | values (q : OrderedMap.Query Bytes)
  | members (key : Bytes) (q : ScoredSet.Query)
  | matchingKeys (read? : String → Option (Bytes → Bool)) (pattern : String)
  | scan (cursor : String) (start : Bytes) (count : Option Nat)
  | issues

/-- The answer to a question. There may be no scored set to ask. -/
def Query.Answer : Query → Type
  | look q => q.Answer
  | values q => q.Answer
  | members _ q => Option (q.Answer Bytes)
  | matchingKeys .. => Except InputError (List Bytes)
  | scan .. => Except InputError (ScanPage Bytes)
  | issues => List Issue

/-- What a keyspace answers. -/
def ask (k : Keyspace) : (q : Query) → Except Fault q.Answer
  | .look q => k.look q
  | .values q => k.values.ask q
  | .members key q => do
    match ← k.set? key with
    | none => return none
    | some z => return some (← z.ask q)
  | .matchingKeys read? pattern => k.matchingKeys read? pattern
  | .scan cursor start count => k.scan cursor start count
  | .issues => k.issues

variable {config : Config} {k : Keyspace} {c : Contents}

/-- No scored set of a keyspace is empty or has an issue. -/
theorem Represents.setIssues_eq (h : k.Represents config c) :
    ∃ found, k.sets.walk.mapM setIssues = .ok found ∧ found.flatten = [] := by
  obtain ⟨zs, ⟨-, es, hm, hs⟩, hmatch⟩ := h.sets
  have hreads := hm.walk_reads
  obtain ⟨leaves, htrace, hitems⟩ := hreads.trace hreads.covers.length_lt_fuel
  refine ⟨leaves.map fun _ => [], ?_, by simp⟩
  rw [Walk.mapM, htrace]
  refine Trace.mapM_ofList fun leaf hleaf => ?_
  have hitem : leaf.item ∈ es.map Entry.item := by
    rw [along_false] at hitems
    exact hitems ▸ List.mem_map_of_mem hleaf
  -- the leaf has a set that is listed, so it stands for members, of which there are some
  have hrel := hmatch leaf.key
  rw [hs.value_iff.2 hitem] at hrel
  generalize hvalue : c.sets.value leaf.key = met at hrel
  cases hrel with
  | some hz =>
      have hfilled := mt hz.isEmpty_iff.1 (c.filled _ _ hvalue)
      obtain ⟨-, es', tiers, hz, -⟩ := hz
      unfold setIssues
      rw [hz.issues_eq, if_neg hfilled]
      rfl

/-- **An audit of a keyspace that stands for contents finds nothing.** -/
theorem Represents.issues_eq (h : k.Represents config c) : k.issues = .ok [] := by
  obtain ⟨-, es, hvalues, -⟩ := h.values
  obtain ⟨zs, ⟨-, es', hsets, -⟩, -⟩ := h.sets
  obtain ⟨found, hfound, hnone⟩ := h.setIssues_eq
  unfold issues
  rw [hvalues.issues_eq, hsets.issues_eq, hfound]
  show Except.ok (_ ++ found.flatten) = _
  rw [hnone]
  rfl

/-- **A keyspace that stands for contents answers every question.** -/
theorem Represents.ask_succeeds (h : k.Represents config c) (q : Query) : Succeeds (k.ask q) := by
  cases q with
  | look q => exact ⟨_, h.look_eq q⟩
  | values q => exact h.values.ask_succeeds q
  | members key q =>
      obtain ⟨found, hfound, hrel⟩ := h.set?_eq key
      show Succeeds (k.set? key >>= _)
      rw [hfound, Edit.ok_bind]
      generalize c.sets.value key = met at hrel
      cases hrel with
      | none => exact Succeeds.ok
      | some hz => exact (hz.ask_succeeds q).bind fun _ _ => Succeeds.ok
  | matchingKeys read? pattern =>
      show Succeeds (k.matchingKeys read? pattern)
      unfold matchingKeys OrderedMap.walkFitting
      cases read? pattern with
      | none => exact Succeeds.ok
      | some keeps =>
          have hentries := h.values.ask_succeeds (.entries (.matching [] keeps))
          exact hentries.bind fun _ _ => Succeeds.ok
  | scan cursor start count =>
      show Succeeds (k.scan cursor start count)
      unfold Keyspace.scan
      split
      · exact Succeeds.ok
      · rename_i cursor hread
        have hpage := h.values.ask_succeeds (.scan cursor start (count.getD k.config.scanCount))
        exact hpage.bind fun _ _ => Succeeds.ok
  | issues => exact ⟨[], h.issues_eq⟩

end OrderedStore.Keyspace
