import Mathlib.Tactic
import OrderedStore.Proofs.Trie.Holds

/-!
# Finite maps

What the store's structures are measured against: finitely many byte strings, each with a value, and
nothing about how they are kept. A list of entries *lists* a finite map when it has every key once, in
order, with its value; the statements at the end say what a write does to both of them.
-/

namespace OrderedStore

/-- Finitely many keys, each with a value. -/
structure FiniteMap (α : Type) where
  keys : Finset Bytes
  value : Bytes → Option α
  value_isSome : ∀ key, (value key).isSome ↔ key ∈ keys

namespace FiniteMap

variable {α : Type}

theorem mem_of_value (m : FiniteMap α) {key : Bytes} {a : α} (h : m.value key = some a) : key ∈ m.keys := by
  rw [← m.value_isSome, h]
  rfl

theorem not_mem_of_value (m : FiniteMap α) {key : Bytes} (h : m.value key = none) : key ∉ m.keys := by
  rw [← m.value_isSome, h]
  exact Bool.false_ne_true

theorem value_of_not_mem (m : FiniteMap α) {key : Bytes} (h : key ∉ m.keys) : m.value key = none := by
  rw [← Option.not_isSome_iff_eq_none, m.value_isSome]
  exact h

/-- **Finite maps with the same values are the same.** -/
theorem ext {m m' : FiniteMap α} (h : ∀ key, m.value key = m'.value key) : m = m' := by
  have hvalue : m.value = m'.value := funext h
  have hkeys : m.keys = m'.keys := by
    ext key
    rw [← m.value_isSome, ← m'.value_isSome, hvalue]
  cases m
  cases m'
  cases hvalue
  cases hkeys
  rfl

/-- The map without keys. -/
def empty : FiniteMap α := ⟨∅, fun _ => none, by simp⟩

def card (m : FiniteMap α) : Nat := m.keys.card

/-- The keys that start with the given bytes. -/
def under (m : FiniteMap α) (start : Bytes) : Finset Bytes := m.keys.filter fun key => start <+: key

/-- The map with a value under a key. -/
def insert (m : FiniteMap α) (key : Bytes) (a : α) : FiniteMap α where
  keys := Insert.insert key m.keys
  value := Function.update m.value key (some a)
  value_isSome := by
    intro k
    rw [Finset.mem_insert]
    by_cases hk : k = key
    · simp [hk]
    · rw [Function.update_of_ne hk, m.value_isSome, or_iff_right hk]

/-- The map with the value under a key changed, if the key is there. -/
def modify (m : FiniteMap α) (key : Bytes) (f : α → α) : FiniteMap α where
  keys := m.keys
  value := Function.update m.value key ((m.value key).map f)
  value_isSome := by
    intro k
    by_cases hk : k = key
    · rw [hk, Function.update_self, Option.isSome_map, m.value_isSome]
    · rw [Function.update_of_ne hk, m.value_isSome]

/-- The map without a key. -/
def erase (m : FiniteMap α) (key : Bytes) : FiniteMap α where
  keys := m.keys.erase key
  value := Function.update m.value key none
  value_isSome := by
    intro k
    rw [Finset.mem_erase]
    by_cases hk : k = key
    · simp [hk]
    · rw [Function.update_of_ne hk, m.value_isSome, and_iff_right hk]

/-- The map without the keys that start with the given bytes. -/
def eraseUnder (m : FiniteMap α) (start : Bytes) : FiniteMap α where
  keys := m.keys.filter fun key => ¬ start <+: key
  value := fun key => if start <+: key then none else m.value key
  value_isSome := by
    intro k
    rw [Finset.mem_filter]
    by_cases hk : start <+: k
    · simp [hk]
    · rw [if_neg hk, m.value_isSome, and_iff_left hk]

/-- The entries have every key of the map once, in order, with its value. -/
structure Lists (m : FiniteMap α) (es : List (Entry α)) : Prop where
  ordered : Entry.Ordered es
  keys : ∀ key, key ∈ m.keys ↔ ∃ e ∈ es, e.key = key
  value : ∀ e ∈ es, m.value e.key = some e.value

variable {m : FiniteMap α} {es xs ms ys : List (Entry α)} {key : Bytes}

theorem lists_empty : (empty : FiniteMap α).Lists [] where
  ordered := List.Pairwise.nil
  keys := by simp [empty]
  value := by simp

theorem Lists.value_of_not_mem (h : m.Lists es) (hkey : ∀ e ∈ es, e.key ≠ key) : m.value key = none := by
  refine m.value_of_not_mem fun hmem => ?_
  obtain ⟨e, he, hek⟩ := (h.keys key).1 hmem
  exact hkey e he hek

theorem Lists.value_at (h : m.Lists es) (hp : Entry.PartsAt key es xs ms ys) :
    m.value key = ms.head?.map Entry.value := by
  cases ms with
  | nil =>
      refine h.value_of_not_mem fun e he hek => ?_
      rw [hp.absent_eq, List.mem_append] at he
      rcases he with he | he
      · exact List.lt_irrefl key (hek ▸ hp.below e he)
      · exact List.lt_irrefl key (hek ▸ hp.above e he)
  | cons e ms =>
      rw [← hp.here e List.mem_cons_self, List.head?_cons, Option.map_some]
      refine h.value e ?_
      rw [hp.parts]
      simp

theorem Lists.card_eq (h : m.Lists es) : m.card = es.length := by
  have hkeys : m.keys = (es.map Entry.key).toFinset := by
    ext key
    rw [h.keys, List.mem_toFinset, List.mem_map]
  unfold card
  rw [hkeys, List.toFinset_card_of_nodup h.ordered.nodup_keys, List.length_map]

theorem Lists.isEmpty_iff (h : m.Lists es) : m.keys = ∅ ↔ es = [] := by
  rw [← Finset.card_eq_zero, ← List.length_eq_zero_iff, ← h.card_eq]
  rfl

/-! ## Writing -/

theorem Lists.insert (h : m.Lists es) (hp : Entry.PartsAt key es xs ms ys) {e : Entry α} (he : e.key = key) :
    (m.insert key e.value).Lists (xs ++ e :: ys) where
  ordered := hp.ordered_with h.ordered he
  keys := by
    intro k
    unfold FiniteMap.insert
    dsimp only
    rw [Finset.mem_insert, h.keys]
    by_cases hk : k = key
    · subst hk
      exact iff_of_true (Or.inl rfl) ⟨e, by simp, he⟩
    · rw [or_iff_right hk]
      refine exists_congr fun x => and_congr_left fun hx => ?_
      rw [hp.mem_around (hx ▸ hk), List.mem_append, List.mem_append, List.mem_cons]
      -- another key is where it was before
      have hxe : x ≠ e := fun hxe => hk (by rw [← hx, hxe, he])
      rw [or_iff_right hxe]
  value := by
    intro x hx
    unfold FiniteMap.insert
    dsimp only
    rw [List.perm_middle.mem_iff, List.mem_cons] at hx
    rcases hx with rfl | hx
    · rw [he, Function.update_self]
    · have hne := hp.ne_of_around x hx
      rw [Function.update_of_ne hne]
      exact h.value x ((hp.mem_around hne).2 hx)

/-- Every list of entries in key order is that of a finite map. -/
theorem exists_lists (ho : Entry.Ordered es) : ∃ m : FiniteMap α, m.Lists es := by
  induction es with
  | nil => exact ⟨empty, lists_empty⟩
  | cons e es ih =>
      unfold Entry.Ordered at ho
      rw [List.pairwise_cons] at ho
      obtain ⟨m, hm⟩ := ih ho.2
      -- the first entry goes in before all the others
      have hbefore : Entry.PartsAt e.key es [] [] es := ⟨rfl, by simp, by simp, ho.1, Nat.zero_le _⟩
      exact ⟨_, hm.insert hbefore rfl⟩

theorem Lists.modify (h : m.Lists es) {e : Entry α} (hp : Entry.PartsAt e.key es xs [e] ys) (f : α → α) :
    (m.modify e.key f).Lists (xs ++ { e with value := f e.value } :: ys) := by
  have hvalue : m.value e.key = some e.value := h.value_at hp
  have hkeys : (m.insert e.key (f e.value)).keys = m.keys := Finset.insert_eq_of_mem (m.mem_of_value hvalue)
  have hinsert := h.insert (e := { e with value := f e.value }) hp rfl
  refine ⟨hinsert.ordered, fun key => ?_, fun x hx => ?_⟩
  · rw [← hinsert.keys]
    change key ∈ m.keys ↔ _
    rw [hkeys]
  · rw [← hinsert.value x hx]
    unfold FiniteMap.modify FiniteMap.insert
    dsimp only
    rw [hvalue, Option.map_some]

theorem Lists.modify_absent (h : m.Lists es) (hp : Entry.PartsAt key es xs [] ys) (f : α → α) :
    (m.modify key f).Lists es := by
  have hvalue : (m.modify key f).value = m.value := by
    unfold FiniteMap.modify
    dsimp only
    have hnone : m.value key = none := h.value_at hp
    rw [hnone, Option.map_none, ← hnone, Function.update_eq_self]
  exact ⟨h.ordered, h.keys, fun e he => by rw [hvalue, h.value e he]⟩

theorem Lists.erase (h : m.Lists es) (hp : Entry.PartsAt key es xs ms ys) :
    (m.erase key).Lists (xs ++ ys) where
  ordered := hp.ordered_around h.ordered
  keys := by
    intro k
    unfold FiniteMap.erase
    dsimp only
    rw [Finset.mem_erase, h.keys]
    constructor
    · rintro ⟨hk, x, hx, rfl⟩
      exact ⟨x, (hp.mem_around hk).1 hx, rfl⟩
    · rintro ⟨x, hx, rfl⟩
      have hne := hp.ne_of_around x hx
      exact ⟨hne, x, (hp.mem_around hne).2 hx, rfl⟩
  value := by
    intro x hx
    have hne := hp.ne_of_around x hx
    unfold FiniteMap.erase
    dsimp only
    rw [Function.update_of_ne hne]
    exact h.value x ((hp.mem_around hne).2 hx)

theorem Lists.eraseUnder (h : m.Lists es) {start : Bytes} (hp : Entry.PartsUnder start es xs ms ys) :
    (m.eraseUnder start).Lists (xs ++ ys) where
  ordered := by
    rw [hp.rest_eq]
    exact List.Pairwise.filter _ h.ordered
  keys := by
    intro k
    unfold FiniteMap.eraseUnder
    dsimp only
    rw [Finset.mem_filter, h.keys, hp.rest_eq]
    constructor
    · rintro ⟨⟨e, he, rfl⟩, hk⟩
      exact ⟨e, List.mem_filter.2 ⟨he, decide_eq_true hk⟩, rfl⟩
    · rintro ⟨e, he, rfl⟩
      obtain ⟨he, hk⟩ := List.mem_filter.1 he
      exact ⟨⟨e, he, rfl⟩, of_decide_eq_true hk⟩
  value := by
    intro e he
    unfold FiniteMap.eraseUnder
    dsimp only
    rw [if_neg (hp.not_starts e he)]
    rw [hp.rest_eq] at he
    exact h.value e (List.mem_of_mem_filter he)

/-- As many keys start with some bytes as entries do. -/
theorem Lists.card_under (h : m.Lists es) {start : Bytes} (hp : Entry.PartsUnder start es xs ms ys) :
    (m.under start).card = ms.length := by
  have hsplit : (m.under start).card + (m.eraseUnder start).card = m.card :=
    Finset.card_filter_add_card_filter_not fun key => start <+: key
  have hrest := (h.eraseUnder hp).card_eq
  have hall := h.card_eq
  rw [hp.parts, List.length_append, List.length_append] at hall
  rw [List.length_append] at hrest
  omega

end FiniteMap

end OrderedStore
