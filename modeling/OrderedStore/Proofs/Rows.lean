import Mathlib.Tactic
import Mathlib.Data.Finset.Sort
import OrderedStore.Proofs.FiniteMap
import OrderedStore.Proofs.Walk.Covers

/-!
# The rows of a finite map

A finite map is enumerated by its rows, each key with its value, in some order. An order that never goes both
ways between two rows leaves no choice, so whatever enumerates the map in key order is what sorting the keys
gives, and that is how the entries of a structure are compared with the map they stand for.
-/

namespace OrderedStore

variable {α : Type}

namespace FiniteMap

/-- The rows are the keys that pass a test, each with its value, in strict order. -/
structure Enumerates (s : FiniteMap α) (before : Bytes × α → Bytes × α → Prop) (keep : Bytes → Prop)
    (rows : List (Bytes × α)) : Prop where
  ordered : rows.Pairwise before
  mem : ∀ key a, (key, a) ∈ rows ↔ s.value key = some a ∧ keep key

/-- The keys with their values, in key order. -/
def byKey (s : FiniteMap α) : List (Bytes × α) :=
  (s.keys.sort (· ≤ ·)).filterMap fun key => (s.value key).map fun a => (key, a)

variable {s : FiniteMap α} {es : List (Entry α)} {before : Bytes × α → Bytes × α → Prop} {keep : Bytes → Prop}
  {rows rows' : List (Bytes × α)}

/-- What a finite map has is what its entries have. -/
theorem Lists.value_iff (h : s.Lists es) {key : Bytes} {a : α} :
    s.value key = some a ↔ (key, a) ∈ es.map Entry.item := by
  rw [List.mem_map]
  constructor
  · intro hvalue
    obtain ⟨e, he, rfl⟩ := (h.keys key).1 (s.mem_of_value hvalue)
    refine ⟨e, he, Prod.ext rfl ?_⟩
    exact Option.some.inj ((h.value e he).symm.trans hvalue)
  · rintro ⟨e, he, hitem⟩
    obtain ⟨rfl, rfl⟩ := Prod.mk.inj hitem
    exact h.value e he

theorem mem_byKey (key : Bytes) (a : α) : (key, a) ∈ s.byKey ↔ s.value key = some a := by
  unfold byKey
  rw [List.mem_filterMap]
  constructor
  · intro h
    obtain ⟨k, -, hk⟩ := h
    obtain ⟨a', hvalue, hrow⟩ := Option.map_eq_some_iff.1 hk
    obtain ⟨rfl, rfl⟩ := Prod.mk.inj hrow
    exact hvalue
  · intro hvalue
    exact ⟨key, (Finset.mem_sort _).2 (s.mem_of_value hvalue), by rw [hvalue, Option.map_some]⟩

/-- **Sorting the keys enumerates the map** in key order. -/
theorem byKey_enumerates (s : FiniteMap α) : s.Enumerates (fun a b => a.1 < b.1) (fun _ => True) s.byKey where
  ordered := by
    have hsorted : (s.keys.sort (· ≤ ·)).Pairwise fun a b => a < b := by
      refine List.Pairwise.imp₂ ?_ (s.keys.pairwise_sort (· ≤ ·)) (s.keys.sort_nodup (· ≤ ·))
      intro a b hle hne
      exact Std.lt_of_le_of_ne hle hne
    unfold byKey
    rw [List.pairwise_filterMap]
    refine hsorted.imp fun hlt x hx y hy => ?_
    obtain ⟨-, -, rfl⟩ := Option.map_eq_some_iff.1 hx
    obtain ⟨-, -, rfl⟩ := Option.map_eq_some_iff.1 hy
    exact hlt
  mem := fun key a => by rw [mem_byKey, and_true]

theorem Enumerates.nodup (h : s.Enumerates before keep rows) (hirrefl : ∀ a, ¬ before a a) : rows.Nodup := by
  unfold List.Nodup
  refine h.ordered.imp ?_
  intro a b hlt heq
  exact hirrefl b (heq ▸ hlt)

theorem Enumerates.perm (h : s.Enumerates before keep rows) {before' : Bytes × α → Bytes × α → Prop}
    (h' : s.Enumerates before' keep rows') (hirrefl : ∀ a, ¬ before a a) (hirrefl' : ∀ a, ¬ before' a a) :
    rows.Perm rows' := by
  refine (List.perm_ext_iff_of_nodup (h.nodup hirrefl) (h'.nodup hirrefl')).2 ?_
  intro row
  obtain ⟨key, a⟩ := row
  rw [h.mem, h'.mem]

/-- **There is one enumeration** in an order that never goes both ways. -/
theorem Enumerates.unique (h : s.Enumerates before keep rows) (h' : s.Enumerates before keep rows')
    (hasymm : ∀ a b, before a b → ¬ before b a) : rows = rows' := by
  have hirrefl : ∀ a, ¬ before a a := fun a haa => hasymm a a haa haa
  exact List.Perm.eq_of_pairwise (fun a b _ _ hab hba => absurd hba (hasymm a b hab)) h.ordered h'.ordered
    (h.perm h' hirrefl hirrefl)

theorem Enumerates.filter (h : s.Enumerates before (fun _ => True) rows) (keep : Bytes → Prop) [DecidablePred keep] :
    s.Enumerates before keep (rows.filter fun row => keep row.1) where
  ordered := h.ordered.filter _
  mem := by
    intro key a
    rw [List.mem_filter, h.mem, and_true, decide_eq_true_eq]

theorem byKey_distinct (s : FiniteMap α) : (s.byKey.map Prod.fst).Nodup := by
  refine List.pairwise_map.2 (s.byKey_enumerates.ordered.imp ?_)
  intro a b hlt heq
  exact List.lt_irrefl b.1 (heq ▸ hlt)

theorem byKey_empty : (empty : FiniteMap α).byKey = [] := by
  unfold byKey empty
  rw [Finset.sort_empty]
  rfl

theorem Lists.enumerates (h : s.Lists es) :
    s.Enumerates (fun a b => a.1 < b.1) (fun _ => True) (es.map Entry.item) where
  ordered := List.pairwise_map.2 h.ordered
  mem := fun key a => by rw [h.value_iff, and_true]

/-- **Entries that list a finite map** are its rows in key order. -/
theorem Lists.byKey_eq (h : s.Lists es) : s.byKey = es.map Entry.item :=
  s.byKey_enumerates.unique h.enumerates fun _ _ => List.lt_asymm

end FiniteMap

end OrderedStore
