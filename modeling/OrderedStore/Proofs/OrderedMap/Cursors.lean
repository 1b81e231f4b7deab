import Mathlib.Tactic
import OrderedStore.Proofs.OrderedMap.Searches

/-!
# What cursors meet

A cursor is a place among the rows of its map. It is set at the first row, or at the first one from a key on, and off
the rows if there is none. Every move that it makes is the move of its place: to the row that follows, to the one
before, or none at all. A move beyond either end leads off the rows. From there no move leads back, so nothing is met
any more.
-/

namespace OrderedStore

open Cursor (visit)

variable {V : Type}

/-- The cursor behaves as a place among these rows. -/
structure Cursor.MovesOver (c : Cursor V) (rows : List (Bytes × V)) (place : Option Nat) : Prop where
  /-- Whatever moves are made, each of them meets the row that it leads to. -/
  meets : ∀ moves, List.map (Option.map Leaf.item) <$> c.drive moves = .ok (visit rows moves place)
  /-- After the first move that meets nothing, none meets anything. -/
  stays : ∀ moves met, c.drive moves = .ok met → met.Pairwise fun here later => here = none → later = none

theorem Cursor.Stands.movesOver {c : Cursor V} {es : List (Entry V)} {place : Option Nat} (h : c.Stands es place) :
    c.MovesOver (es.map Entry.item) place := by
  have hrows : ∀ moves, ∃ met, c.drive moves = .ok met ∧
      met.map (Option.map Leaf.item) = visit (es.map Entry.item) moves place := by
    intro moves
    obtain ⟨met, hdrive, hmet⟩ := h.drive moves
    exact ⟨met, hdrive, hmet.trans (Cursor.visit_map Entry.item es moves place).symm⟩
  constructor
  · intro moves
    obtain ⟨met, hdrive, hmet⟩ := hrows moves
    rw [hdrive, ← hmet]
    rfl
  · intro moves met hmet
    obtain ⟨_, hdrive, hitems⟩ := hrows moves
    obtain rfl := Except.ok.inj (hmet.symm.trans hdrive)
    have hvisit := Cursor.visit_pairwise (es.map Entry.item) moves (by simpa using h.inside)
    rw [← hitems, List.pairwise_map] at hvisit
    simpa using hvisit

namespace OrderedMap

variable {m : OrderedMap V} {s : FiniteMap V} {es : List (Entry V)}

/-- Where the cursors of a map start among its rows, and how they move from there. -/
structure SetsCursors (m : OrderedMap V) (s : FiniteMap V) : Prop where
  atFirst : m.cursor.MovesOver s.byKey (if s.byKey.isEmpty then none else some 0)
  /-- The first row whose key is not below the given one. -/
  atOrAbove : ∀ key, (m.cursorFrom key).MovesOver s.byKey (s.byKey.findIdx? fun row => key ≤ row.1)

/-- A cursor is set at the first entry, if there is any. -/
theorem Shows.cursor_stands (h : m.Shows es) : m.cursor.Stands es (if es.isEmpty then none else some 0) where
  linked := h.linked
  first := h.trie.first_eq
  last := h.trie.last_eq
  position := by
    rw [cursor, h.trie.first_eq]
    cases es <;> rfl
  inside := by
    cases es <;> simp

/-- A cursor is set at the first entry from a key on, if there is any. -/
theorem Shows.cursorFrom_stands (h : m.Shows es) (key : Bytes) :
    (m.cursorFrom key).Stands es (es.findIdx? fun e => key ≤ e.key) := by
  obtain ⟨xs, ms, ys, hp⟩ := h.trie.ordered.partsAt key
  refine h.cursor_stands.at ?_ fun i hi => (List.findIdx?_eq_some_iff_getElem.1 hi).1
  rw [h.trie.atOrAbove_eq hp, hp.from_eq, Entry.first, List.head?_filter, List.find?_eq_bind_findIdx?_getElem?]
  rfl

/-- **The cursors of a map are places among its rows.** -/
theorem Shows.setsCursors (h : m.Shows es) (hs : s.Lists es) : m.SetsCursors s where
  atFirst := by
    rw [hs.byKey_eq, List.isEmpty_map]
    exact h.cursor_stands.movesOver
  atOrAbove := by
    intro key
    rw [hs.byKey_eq, List.findIdx?_map]
    exact (h.cursorFrom_stands key).movesOver

/-- **Whatever calls led to a map, its cursors are places among its rows**, whichever way they go and however often they
turn. -/
theorem cursors_of_reachable (h : m.Reachable) : ∃ s, m.ReadsLike s ∧ m.SetsCursors s := by
  obtain ⟨limit, s, -, es, hm, hs⟩ := h.represents
  exact ⟨s, hm.toShows.readsLike hs, hm.toShows.setsCursors hs⟩

theorem nested_cursors :
    nested.Reachable ∧ (∃ s, nested.ReadsLike s ∧ nested.SetsCursors s) ∧
      List.map (Option.map Leaf.key) <$> (nested.cursorFrom [1, 2, 4]).drive [.stay, .prev, .next, .next, .next, .prev] =
        .ok [some [1, 2, 5], some [1, 2, 3], some [1, 2, 5], some [7], none, none] ∧
      List.map (Option.map Leaf.key) <$> (nested.cursorFrom [8]).drive [.prev] = .ok [none] := by
  have hreachable : nested.Reachable := ⟨0, 8, LeadsTo.here.afterAll 1 _⟩
  exact ⟨hreachable, cursors_of_reachable hreachable, by decide +kernel, by decide +kernel⟩

end OrderedMap

end OrderedStore
