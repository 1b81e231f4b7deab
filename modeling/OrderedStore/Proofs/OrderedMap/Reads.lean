import Mathlib.Tactic
import OrderedStore.Proofs.OrderedMap.Longest
import OrderedStore.Proofs.OrderedMap.Stretches
import OrderedStore.Proofs.Rows

/-!
# A map that reads like a finite map

Every read of a map, told by the rows of a finite map: look-ups, the two ends, the walks over all stretches from
either end, and the longest stored beginning of a key. A map that shows the entries of a finite map reads like it.
Nothing is asked of the pool but that the entries' leaves form one chain.
-/

namespace OrderedStore.OrderedMap

variable {V : Type}

/-- Every read of the map gives what the finite map gives. -/
structure ReadsLike (m : OrderedMap V) (s : FiniteMap V) : Prop where
  /-- Look-ups and the count. -/
  agrees : m.Agrees s
  first : Option.map Leaf.item <$> m.first? = .ok s.byKey.head?
  last : Option.map Leaf.item <$> m.last? = .ok s.byKey.getLast?
  /-- Walks, as they go. -/
  forth : ∀ part, List.map Leaf.item <$> (m.walkOver part).toList = .ok (part.select s.byKey)
  /-- Walks from their other end. -/
  back : ∀ part, List.map Leaf.item <$> (m.walkOver part).reverse.toList = .ok (part.select s.byKey).reverse
  longest : ∀ key, Option.map Leaf.item <$> m.longest? key = .ok (s.longest key)

variable {m : OrderedMap V} {s : FiniteMap V} {es : List (Entry V)}

/-- Each walk covers entries that give the rows of its stretch. -/
theorem Shows.walkOver_rows (h : m.Shows es) (hs : s.Lists es) (part : Stretch) :
    ∃ ms, (m.walkOver part).Covers ms ∧ ((m.walkOver part).kept ms).map Entry.item = part.select s.byKey := by
  rw [hs.byKey_eq]
  exact h.walkOver_covers part

/-- **A map that shows the entries of a finite map reads like it.** -/
theorem Shows.readsLike (h : m.Shows es) (hs : s.Lists es) : m.ReadsLike s where
  agrees := h.agrees hs
  first := by
    obtain ⟨met, hmet, hitem, -⟩ := h.first?_eq
    rw [hmet, hs.byKey_eq, List.head?_map, ← hitem]
    rfl
  last := by
    obtain ⟨met, hmet, hitem, -⟩ := h.last?_eq
    rw [hmet, hs.byKey_eq, List.getLast?_map, ← hitem]
    rfl
  forth := by
    intro part
    obtain ⟨ms, hcovers, hrows⟩ := h.walkOver_rows hs part
    rw [hcovers.listed, hrows]
  back := by
    intro part
    obtain ⟨ms, hcovers, hrows⟩ := h.walkOver_rows hs part
    rw [hcovers.reverse.listed, Walk.kept_reverse, List.map_reverse, hrows]
  longest := by
    intro key
    obtain ⟨met, hmet, hitem⟩ := h.longest?_eq hs key
    rw [hmet, ← hitem]
    rfl

theorem Represents.readsLike {limit : Nat} (h : Represents limit m s) : m.ReadsLike s := by
  obtain ⟨-, es, hm, hs⟩ := h
  exact hm.toShows.readsLike hs

end OrderedStore.OrderedMap
