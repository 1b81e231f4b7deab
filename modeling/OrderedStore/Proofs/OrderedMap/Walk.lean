import Mathlib.Tactic
import OrderedStore.Proofs.OrderedMap.Holds
import OrderedStore.Proofs.Walk.Covers

/-!
# Walks over an ordered map

Each way to walk over a map reads a part of what the map shows: all of it, the keys that start with some
bytes, or the keys on one side of a key together with the key itself.
-/

namespace OrderedStore

open Entry (PartsAt PartsUnder)

variable {V : Type} {es xs ms ys : List (Entry V)} {key start : Bytes}

namespace Trie

variable {t : Trie}

theorem Holds.atOrAbove_eq (h : t.Holds es) (hp : PartsAt key es xs ms ys) :
    t.atOrAbove key = Entry.first (ms ++ ys) := by
  unfold atOrAbove
  rw [h.find?_eq hp, h.neighbors_eq hp]
  cases ms with
  | nil => cases ys <;> rfl
  | cons e ms => rfl

theorem Holds.atOrBelow_eq (h : t.Holds es) (hp : PartsAt key es xs ms ys) :
    t.atOrBelow key = Entry.last (xs ++ ms) := by
  unfold atOrBelow
  rw [h.find?_eq hp, h.neighbors_eq hp]
  rcases ms with _ | ⟨e, _ | ⟨e', ms⟩⟩
  · rw [List.append_nil]
    unfold Entry.last
    cases xs.getLast? <;> rfl
  · -- the key itself is nearer than anything below it
    rw [Entry.last_append_right (List.cons_ne_nil e [])]
    rfl
  · have honce := hp.once
    simp at honce

end Trie

namespace OrderedMap

variable {m : OrderedMap V}

theorem Shows.walk_reads (h : m.Shows es) : m.walk.Reads false es := by
  have hc : m.leaves.Linked ([] ++ es ++ []) := by simpa using h.linked
  refine ⟨Walk.covers_between hc (fun _ => ⟨h.trie.first_eq, h.trie.last_eq⟩) fun hnil => Or.inl ?_, rfl, fun _ => rfl⟩
  rw [h.trie.first_eq, hnil]
  rfl

/-- **The keys that start with some bytes** are what the walk under those bytes reads. -/
theorem Shows.walkUnder_reads (h : m.Shows es) (hp : PartsUnder start es xs ms ys) :
    (m.walkUnder start).Reads false ms := by
  obtain ⟨xs', ms', ys', hp', -, hcov⟩ := h.trie.covering?_parts start
  -- the keys that start with the bytes are the same ones, however they were found
  obtain rfl : ms = ms' := by rw [hp.within_eq, hp'.within_eq]
  have hc := h.linked
  rw [hp'.parts] at hc
  unfold walkUnder
  cases hcover : m.trie.covering? start with
  | none =>
      rw [hcover] at hcov
      exact ⟨Walk.covers_between hc (fun hne => absurd hcov hne) fun _ => Or.inl rfl, rfl, fun _ => rfl⟩
  | some n =>
      rw [hcover] at hcov
      refine ⟨Walk.covers_between hc (fun _ => hcov) fun hnil => Or.inl ?_, rfl, fun _ => rfl⟩
      rw [hcov.1, hnil]
      rfl

theorem Shows.walkFrom_reads (h : m.Shows es) (hp : PartsAt key es xs ms ys) :
    (m.walkFrom key).Reads false (ms ++ ys) := by
  have hc := h.linked
  rw [hp.parts, List.append_assoc, ← List.append_nil (xs ++ (ms ++ ys))] at hc
  have hfront := h.trie.atOrAbove_eq hp
  refine ⟨Walk.covers_between hc (fun hne => ⟨hfront, ?_⟩) fun hnil => Or.inl ?_, rfl, fun _ => rfl⟩
  · rw [h.trie.last_eq, hp.parts, List.append_assoc, Entry.last_append_right hne]
  · rw [hfront, hnil]
    rfl

theorem Shows.walkDownFrom_reads (h : m.Shows es) (hp : PartsAt key es xs ms ys) :
    (m.walkDownFrom key).Reads true (xs ++ ms) := by
  have hc := h.linked
  rw [hp.parts, ← List.nil_append (xs ++ ms)] at hc
  have hback := h.trie.atOrBelow_eq hp
  refine ⟨Walk.covers_between hc (fun hne => ⟨?_, hback⟩) fun hnil => Or.inr ?_, rfl, fun _ => rfl⟩
  · rw [h.trie.first_eq, hp.parts, Entry.first_append_left hne]
  · rw [hback, hnil]
    rfl

/-! ## Ends -/

theorem leafAt_ok {id : LeafId} {leaf : Leaf V} (h : m.leaves.leaf? id = some leaf) :
    m.leafAt (some id) = .ok (some leaf) := by
  unfold leafAt
  rw [if_neg (Option.some_ne_none id), Pool.get_ok h]
  rfl

theorem Shows.leafAt_eq {e : Entry V} (h : m.Shows (xs ++ e :: ys)) :
    m.leafAt (some e.id) = .ok (some ⟨e.key, e.value, Entry.last xs, Entry.first ys⟩) :=
  leafAt_ok h.linked.leaf?_mid

/-- The first leaf is that of the first entry, and nothing comes before it. -/
theorem Shows.first?_eq (h : m.Shows es) :
    ∃ met, m.first? = .ok met ∧ met.map Leaf.item = es.head?.map Entry.item ∧ met.bind Leaf.prev = none := by
  unfold first?
  rw [h.trie.first_eq]
  cases es with
  | nil => exact ⟨none, rfl, rfl, rfl⟩
  | cons e es =>
      have hfront : m.Shows ([] ++ e :: es) := h
      exact ⟨_, hfront.leafAt_eq, rfl, rfl⟩

theorem Shows.last?_eq (h : m.Shows es) :
    ∃ met, m.last? = .ok met ∧ met.map Leaf.item = es.getLast?.map Entry.item ∧ met.bind Leaf.next = none := by
  unfold last?
  rw [h.trie.last_eq]
  rcases List.eq_nil_or_concat' es with rfl | ⟨es, e, rfl⟩
  · exact ⟨none, rfl, rfl, rfl⟩
  · rw [Entry.last_concat, List.getLast?_concat]
    exact ⟨_, h.leafAt_eq, rfl, rfl⟩

end OrderedMap

end OrderedStore
