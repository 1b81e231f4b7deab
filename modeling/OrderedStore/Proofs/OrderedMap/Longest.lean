import Mathlib.Tactic
import OrderedStore.Proofs.OrderedMap.Refines
import OrderedStore.Proofs.OrderedMap.Walk
import OrderedStore.Proofs.Trie.Longest

/-!
# The longest key that a string starts with

The finite map is asked for every beginning of the string, the longest first. The trie passes the same keys on
one descent.
-/

namespace OrderedStore

variable {V : Type}

namespace FiniteMap

/-- The longest of the first `n` beginnings of a string that is a key, with its value. -/
def longestOf (s : FiniteMap V) (key : Bytes) : (n : Nat) → Option (Bytes × V)
  | 0 => (s.value []).map fun a => ([], a)
  | n + 1 => ((s.value (key.take (n + 1))).map fun a => (key.take (n + 1), a)).or (s.longestOf key n)

/-- The longest key that a string starts with, and its value. -/
def longest (s : FiniteMap V) (key : Bytes) : Option (Bytes × V) := s.longestOf key key.length

variable {s : FiniteMap V} {es : List (Entry V)}

/-- The entries whose keys are beginnings of a string. -/
def startsOf (es : List (Entry V)) (key : Bytes) : List (Entry V) := es.filter fun e => e.key <+: key

theorem prefix_take_succ {p key : Bytes} {n : Nat} (hn : n < key.length) :
    p <+: key.take (n + 1) ↔ p = key.take (n + 1) ∨ p <+: key.take n := by
  constructor
  · intro h
    by_cases heq : p = key.take (n + 1)
    · exact Or.inl heq
    · -- a beginning that is not the whole is as long as the rest at most
      have hlt : p.length < (key.take (n + 1)).length := by
        refine Nat.lt_of_le_of_ne h.length_le fun hlen => heq (h.eq_of_length hlen)
      rw [List.length_take] at hlt
      have hp := List.prefix_take_iff.1 h
      exact Or.inr (List.prefix_take_iff.2 ⟨hp.1, by omega⟩)
  · intro h
    rcases h with rfl | h
    · exact List.prefix_rfl
    · exact h.trans (List.take_prefix_take_left (by omega))

/-- No beginning of a string comes after it, so an entry at the string itself is the last of its beginnings. -/
theorem getLast?_startsOf {xs ys : List (Entry V)} {e : Entry V} (hp : Entry.PartsAt e.key es xs [e] ys) :
    (startsOf es e.key).getLast? = some e := by
  have hys : startsOf ys e.key = [] := by
    refine List.filter_eq_nil_iff.2 fun y hy => ?_
    rw [decide_eq_true_eq]
    intro hstart
    obtain ⟨t, ht⟩ := hstart
    have hlt := hp.above y hy
    rw [← ht] at hlt
    exact Bytes.not_append_lt y.key t hlt
  have he : startsOf [e] e.key = [e] := by simp [startsOf]
  unfold startsOf at hys he ⊢
  rw [hp.parts, List.filter_append, List.filter_append, hys, he, List.append_nil, List.getLast?_concat]

theorem Lists.longestOf_eq (h : s.Lists es) (key : Bytes) {n : Nat} (hn : n ≤ key.length) :
    s.longestOf key n = (startsOf es (key.take n)).getLast?.map Entry.item := by
  induction n with
  | zero =>
      rw [longestOf, List.take_zero]
      rcases h.ordered.present_or_absent [] with ⟨xs, e, ys, hkey, hp⟩ | ⟨xs, ys, hp⟩
      · rw [← hkey] at hp ⊢
        rw [getLast?_startsOf hp, h.value_at hp]
        rfl
      · have hnone : startsOf es [] = [] := by
          refine List.filter_eq_nil_iff.2 fun e he => ?_
          rw [hp.absent_eq] at he
          rw [decide_eq_true_eq, List.prefix_nil]
          exact hp.ne_of_around e he
        rw [hnone, h.value_at hp]
        rfl
  | succ n ih =>
      rw [longestOf, ih (by omega)]
      rcases h.ordered.present_or_absent (key.take (n + 1)) with ⟨xs, e, ys, hkey, hp⟩ | ⟨xs, ys, hp⟩
      · rw [← hkey] at hp ⊢
        rw [getLast?_startsOf hp, h.value_at hp]
        rfl
      · -- without an entry there, the beginnings are those of the string one shorter
        have hsame : startsOf es (key.take (n + 1)) = startsOf es (key.take n) := by
          refine List.filter_congr fun e he => ?_
          rw [hp.absent_eq] at he
          rw [decide_eq_decide, prefix_take_succ (by omega), or_iff_right (hp.ne_of_around e he)]
        rw [hsame, h.value_at hp]
        rfl

theorem Lists.longest_eq (h : s.Lists es) (key : Bytes) :
    s.longest key = (startsOf es key).getLast?.map Entry.item := by
  unfold longest
  rw [h.longestOf_eq key (Nat.le_refl _), List.take_length]

theorem longestOf_eq_none {key : Bytes} {n : Nat} (hn : n ≤ key.length) (h : s.longestOf key n = none) :
    ∀ k ∈ s.keys, ¬ k <+: key.take n := by
  induction n with
  | zero =>
      rw [longestOf, Option.map_eq_none_iff] at h
      intro k hk hstart
      rw [List.take_zero, List.prefix_nil] at hstart
      exact s.not_mem_of_value h (hstart ▸ hk)
  | succ n ih =>
      rw [longestOf, Option.or_eq_none_iff, Option.map_eq_none_iff] at h
      obtain ⟨hhere, hrest⟩ := h
      intro k hk hstart
      rcases (prefix_take_succ (by omega)).1 hstart with rfl | hstart
      · exact s.not_mem_of_value hhere hk
      · exact ih (by omega) hrest k hk hstart

theorem longestOf_eq_some {key k : Bytes} {a : V} {n : Nat} (hn : n ≤ key.length)
    (h : s.longestOf key n = some (k, a)) :
    s.value k = some a ∧ k <+: key.take n ∧ ∀ k' ∈ s.keys, k' <+: key.take n → k' <+: k := by
  induction n with
  | zero =>
      rw [longestOf] at h
      obtain ⟨a', hvalue, heq⟩ := Option.map_eq_some_iff.1 h
      obtain ⟨rfl, rfl⟩ := Prod.mk.inj heq
      exact ⟨hvalue, List.nil_prefix, fun k' _ hstart => hstart⟩
  | succ n ih =>
      rw [longestOf] at h
      cases hhere : s.value (key.take (n + 1)) with
      | some a' =>
          -- the string itself is a key, and all its beginnings are beginnings of that
          rw [hhere, Option.map_some, Option.some_or, Option.some.injEq] at h
          obtain ⟨rfl, rfl⟩ := Prod.mk.inj h
          exact ⟨hhere, List.prefix_rfl, fun k' _ hstart => hstart⟩
      | none =>
          rw [hhere, Option.map_none, Option.none_or] at h
          obtain ⟨hvalue, hstart, hlongest⟩ := ih (by omega) h
          refine ⟨hvalue, (prefix_take_succ (by omega)).2 (Or.inr hstart), fun k' hk' hstart' => ?_⟩
          rcases (prefix_take_succ (by omega)).1 hstart' with rfl | hstart'
          · exact absurd hk' (s.not_mem_of_value hhere)
          · exact hlongest k' hk' hstart'

/-- There is no longest key just if no key is a beginning of the string. -/
theorem longest_eq_none_iff {key : Bytes} : s.longest key = none ↔ ∀ k ∈ s.keys, ¬ k <+: key := by
  unfold longest
  constructor
  · intro h
    have hnone := longestOf_eq_none (Nat.le_refl _) h
    rwa [List.take_length] at hnone
  · intro h
    cases hlongest : s.longestOf key key.length with
    | none => rfl
    | some row =>
        obtain ⟨hvalue, hstart, -⟩ := longestOf_eq_some (Nat.le_refl _) hlongest
        rw [List.take_length] at hstart
        exact absurd hstart (h row.1 (s.mem_of_value hvalue))

/-- **The longest key** is a beginning of the string, and every other key that is one is a beginning of it. -/
theorem longest_eq_some {key k : Bytes} {a : V} (h : s.longest key = some (k, a)) :
    s.value k = some a ∧ k <+: key ∧ ∀ k' ∈ s.keys, k' <+: key → k' <+: k := by
  have hlongest := longestOf_eq_some (Nat.le_refl _) h
  rwa [List.take_length] at hlongest

end FiniteMap

/-- **The map finds the longest key** that a string starts with. -/
theorem OrderedMap.Shows.longest?_eq {m : OrderedMap V} {s : FiniteMap V} {es : List (Entry V)} (h : m.Shows es)
    (hs : s.Lists es) (key : Bytes) : ∃ met, m.longest? key = .ok met ∧ met.map Leaf.item = s.longest key := by
  have hlisted : Node.beginnings key (Entry.listed es) = Entry.listed (FiniteMap.startsOf es key) := by
    unfold Node.beginnings Entry.listed FiniteMap.startsOf
    rw [List.filter_map]
    rfl
  have hfind : m.trie.longest? key = (FiniteMap.startsOf es key).getLast?.map fun e => some e.id := by
    unfold Trie.longest?
    rw [h.trie.regular.longest?_eq, h.trie.listing, hlisted, Option.or_none, Entry.getLast?_listed]
  rw [hs.longest_eq]
  unfold OrderedMap.longest?
  rw [hfind]
  cases hlast : (FiniteMap.startsOf es key).getLast? with
  | none => exact ⟨none, rfl, rfl⟩
  | some e =>
      have he : e ∈ es := List.mem_of_mem_filter (List.mem_of_getLast? hlast)
      obtain ⟨xs, ys, rfl⟩ := List.append_of_mem he
      have hget := Pool.get_ok h.linked.leaf?_mid
      refine ⟨some ⟨e.key, e.value, Entry.last xs, Entry.first ys⟩, ?_, rfl⟩
      rw [Option.map_some, Option.mapM_some, hget]
      rfl

theorem OrderedMap.Represents.longest?_eq {limit : Nat} {m : OrderedMap V} {s : FiniteMap V}
    (h : Represents limit m s) (key : Bytes) :
    ∃ met, m.longest? key = .ok met ∧ met.map Leaf.item = s.longest key := by
  obtain ⟨-, es, hm, hs⟩ := h
  exact hm.toShows.longest?_eq hs key

end OrderedStore
