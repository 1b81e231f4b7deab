import Mathlib.Tactic
import OrderedStore.Proofs.OrderedMap.Walk
import OrderedStore.Proofs.Walk.Drive

/-!
# Walks over stretches of a map

The walks that a map gives are one family, with a stretch of the map for each. What a walk over a stretch keeps
is what the stretch selects from the rows of the map, in the order in which the walk goes.
-/

namespace OrderedStore

open Entry (PartsAt PartsUnder)

variable {V : Type}

namespace Entry

variable {es xs ms ys : List (Entry V)} {key : Bytes}

theorem filter_front {test : Entry V → Bool} (hxs : ∀ e ∈ xs, test e = true) (hys : ∀ e ∈ ys, test e = false) :
    (xs ++ ys).filter test = xs := by
  rw [List.filter_append, List.filter_eq_self.2 hxs, List.filter_eq_nil_iff.2 fun e he => by simp [hys e he],
    List.append_nil]

theorem filter_back {test : Entry V → Bool} (hxs : ∀ e ∈ xs, test e = false) (hys : ∀ e ∈ ys, test e = true) :
    (xs ++ ys).filter test = ys := by
  rw [List.filter_append, List.filter_eq_self.2 hys, List.filter_eq_nil_iff.2 fun e he => by simp [hxs e he],
    List.nil_append]

namespace PartsAt

theorem from_le (h : PartsAt key es xs ms ys) : ∀ e ∈ ms ++ ys, key ≤ e.key := by
  intro e he
  rcases List.mem_append.1 he with he | he
  · exact h.here e he ▸ List.le_refl e.key
  · exact Std.le_of_lt (h.above e he)

theorem upTo_le (h : PartsAt key es xs ms ys) : ∀ e ∈ xs ++ ms, e.key ≤ key := by
  intro e he
  rcases List.mem_append.1 he with he | he
  · exact Std.le_of_lt (h.below e he)
  · exact h.here e he ▸ List.le_refl e.key

/-- The entries from a key on are what their own test selects. -/
theorem from_eq (h : PartsAt key es xs ms ys) : ms ++ ys = es.filter fun e => key ≤ e.key := by
  rw [h.parts, List.append_assoc, filter_back (fun e he => ?_) fun e he => decide_eq_true (h.from_le e he)]
  exact decide_eq_false (List.not_le.2 (h.below e he))

theorem below_eq (h : PartsAt key es xs ms ys) : xs = es.filter fun e => e.key < key := by
  rw [h.parts, List.append_assoc, filter_front (fun e he => decide_eq_true (h.below e he)) fun e he => ?_]
  exact decide_eq_false (List.not_lt.2 (h.from_le e he))

/-- The entries up to a key are what their own test selects. -/
theorem upTo_eq (h : PartsAt key es xs ms ys) : xs ++ ms = es.filter fun e => e.key ≤ key := by
  rw [h.parts, filter_front (fun e he => decide_eq_true (h.upTo_le e he)) fun e he => ?_]
  exact decide_eq_false (List.not_le.2 (h.above e he))

theorem above_eq (h : PartsAt key es xs ms ys) : ys = es.filter fun e => key < e.key := by
  rw [h.parts, filter_back (fun e he => ?_) fun e he => decide_eq_true (h.above e he)]
  exact decide_eq_false (List.not_lt.2 (h.upTo_le e he))

end PartsAt

end Entry

namespace OrderedMap

/-- A stretch of a map that a walk may go over. -/
inductive Stretch
  | all
  | under (start : Bytes)
  | upFrom (key : Bytes)
  | downFrom (key : Bytes)
  | matching (start : Bytes) (keeps : Bytes → Bool)

/-- The walk over a stretch. -/
def walkOver (m : OrderedMap V) : Stretch → Walk V
  | .all => m.walk
  | .under start => m.walkUnder start
  | .upFrom key => m.walkFrom key
  | .downFrom key => m.walkDownFrom key
  | .matching start keeps => m.walkMatching start keeps

/-- The part of some rows that a stretch has, in the order in which the walk over it goes. -/
def Stretch.select {α : Type} (rows : List (Bytes × α)) : Stretch → List (Bytes × α)
  | .all => rows
  | .under start => rows.filter fun row => start <+: row.1
  | .upFrom key => rows.filter fun row => key ≤ row.1
  | .downFrom key => (rows.filter fun row => row.1 ≤ key).reverse
  | .matching start keeps => (rows.filter fun row => start <+: row.1).filter fun row => keeps row.1

variable {m : OrderedMap V} {es : List (Entry V)}

/-- **A walk over a stretch** covers entries of the map, and keeps what the stretch selects. -/
theorem Shows.walkOver_covers (h : m.Shows es) (part : Stretch) :
    ∃ ms, (m.walkOver part).Covers ms ∧
      ((m.walkOver part).kept ms).map Entry.item = part.select (es.map Entry.item) := by
  cases part with
  | all =>
      refine ⟨es, h.walk_reads.covers, ?_⟩
      exact congrArg (List.map Entry.item) h.walk_reads.kept
  | under start =>
      obtain ⟨xs, ms, ys, hp, -⟩ := h.trie.covering?_parts start
      have hreads := h.walkUnder_reads hp
      refine ⟨ms, hreads.covers, ?_⟩
      rw [walkOver, hreads.kept, along_false, hp.within_eq, Stretch.select, List.filter_map]
      rfl
  | upFrom key =>
      obtain ⟨xs, ms, ys, hp⟩ := h.trie.ordered.partsAt key
      have hreads := h.walkFrom_reads hp
      refine ⟨ms ++ ys, hreads.covers, ?_⟩
      rw [walkOver, hreads.kept, along_false, hp.from_eq, Stretch.select, List.filter_map]
      rfl
  | downFrom key =>
      obtain ⟨xs, ms, ys, hp⟩ := h.trie.ordered.partsAt key
      have hreads := h.walkDownFrom_reads hp
      refine ⟨xs ++ ms, hreads.covers, ?_⟩
      rw [walkOver, hreads.kept, along_true, hp.upTo_eq, Stretch.select, List.filter_map, List.map_reverse]
      rfl
  | matching start keeps =>
      -- the walk under the same bytes, with a test of its own
      obtain ⟨xs, ms, ys, hp, -⟩ := h.trie.covering?_parts start
      have hreads := h.walkUnder_reads hp
      refine ⟨ms, hreads.covers.keeping keeps, ?_⟩
      unfold Walk.kept
      rw [show (m.walkOver (.matching start keeps)).descending = false from hreads.direction, along_false,
        hp.within_eq, Stretch.select, List.filter_map, List.filter_map]
      rfl

end OrderedMap

end OrderedStore
