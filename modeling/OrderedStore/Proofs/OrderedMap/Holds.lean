import Mathlib.Tactic
import OrderedStore.OrderedMap.Basic
import OrderedStore.Proofs.Trie.Write

/-!
# What an ordered map holds

A map *shows* a list of entries when its trie holds them and their leaves form one chain. Every read is told by
the entries a map shows. It *holds* them when the pool is sound as well and has no other leaves. Every write
ends in a map that holds the entries the write should leave.
-/

namespace OrderedStore.OrderedMap

open Edit
open Entry (PartsAt PartsUnder)

variable {V : Type}

/-- The map has these entries, in this order, as far as reads can tell. -/
structure Shows (m : OrderedMap V) (es : List (Entry V)) : Prop where
  trie : m.trie.Holds es
  linked : m.leaves.Linked es

/-- The map has these entries, in this order, and its pool is sound and has no other leaves. -/
structure Holds (m : OrderedMap V) (es : List (Entry V)) : Prop extends m.Shows es where
  sound : m.leaves.Sound
  live : m.leaves.live = es.length

variable {m : OrderedMap V} {es xs ms ys : List (Entry V)} {e : Entry V} {key : Bytes} {value : V}

theorem Holds.chained (h : m.Holds es) : m.leaves.Chained es := ⟨h.sound, h.linked.strand, h.linked.nodup⟩

theorem Holds.of_chained (htrie : m.trie.Holds es) (hchained : m.leaves.Chained es)
    (hlive : m.leaves.live = es.length) : m.Holds es := ⟨⟨htrie, hchained.linked⟩, hchained.sound, hlive⟩

theorem holds_empty (stamp : Stamp) (limit : Nat) : (empty V stamp limit).Holds [] :=
  .of_chained (Trie.holds_empty stamp) Pool.chained_empty rfl

/-! ## Reading -/

theorem Shows.size_eq (h : m.Shows es) : m.size = es.length := h.trie.size

theorem Shows.isEmpty_iff (h : m.Shows es) : m.isEmpty = true ↔ es = [] := h.trie.isEmpty_iff

theorem Shows.contains_eq (h : m.Shows es) (hp : PartsAt key es xs ms ys) :
    m.contains key = ms.head?.isSome := by
  unfold contains
  rw [h.trie.find?_eq hp, Option.isSome_map]

theorem Shows.get?_old (h : m.Shows es) (hp : PartsAt key es xs [e] ys) : m.get? key = .ok (some e.value) := by
  have hc := h.linked
  rw [hp.present_eq] at hc
  unfold get?
  rw [h.trie.find?_eq hp, List.head?_cons, Option.map_some, Option.mapM_some,
    Pool.get_ok (hc.leaf?_mid)]
  rfl

theorem Shows.get?_absent (h : m.Shows es) (hp : PartsAt key es xs [] ys) : m.get? key = .ok none := by
  unfold get?
  rw [h.trie.find?_eq hp]
  rfl

theorem Shows.get?_eq (h : m.Shows es) (hp : PartsAt key es xs ms ys) :
    m.get? key = .ok (ms.head?.map Entry.value) := by
  rcases ms with _ | ⟨e, _ | ⟨e', ms⟩⟩
  · exact h.get?_absent hp
  · exact h.get?_old hp
  · have honce := hp.once
    simp at honce

/-- The values that reads find are those of the entries. -/
theorem Shows.get?_iff (h : m.Shows es) (key : Bytes) (value : V) :
    m.get? key = .ok (some value) ↔ ∃ e ∈ es, e.key = key ∧ e.value = value := by
  rcases h.trie.ordered.present_or_absent key with ⟨xs, e, ys, rfl, hp⟩ | ⟨xs, ys, hp⟩
  · rw [h.get?_old hp, hp.present_eq, Except.ok.injEq, Option.some.injEq]
    constructor
    · intro hvalue
      exact ⟨e, by simp, rfl, hvalue⟩
    · rintro ⟨x, hx, hkey, hvalue⟩
      -- no other entry has the key
      by_cases hne : x = e
      · rw [← hne, hvalue]
      · have hx' : x ∈ xs ++ ys := by
          rw [List.mem_append, List.mem_cons] at hx
          rw [List.mem_append]
          exact hx.imp id fun hx => hx.resolve_left hne
        exact absurd hkey (hp.ne_of_around x hx')
  · rw [h.get?_absent hp]
    refine iff_of_false (by simp) ?_
    rintro ⟨x, hx, hkey, -⟩
    rw [hp.absent_eq] at hx
    exact hp.ne_of_around x hx hkey

theorem Shows.contains_iff (h : m.Shows es) (key : Bytes) : m.contains key = true ↔ ∃ e ∈ es, e.key = key := by
  rcases h.trie.ordered.present_or_absent key with ⟨xs, e, ys, rfl, hp⟩ | ⟨xs, ys, hp⟩
  · rw [h.contains_eq hp, hp.present_eq]
    exact iff_of_true rfl ⟨e, by simp, rfl⟩
  · rw [h.contains_eq hp]
    refine iff_of_false Bool.false_ne_true ?_
    rintro ⟨x, hx, hkey⟩
    rw [hp.absent_eq] at hx
    exact hp.ne_of_around x hx hkey

/-! ## Writing -/

/-- The chain of a map that owns its pool borders on nothing. -/
theorem Holds.chained_alone (h : m.Holds es) : m.leaves.Chained ([] ++ es ++ []) := by
  rw [List.nil_append, List.append_nil]
  exact h.chained

theorem Holds.put_new (h : m.Holds es) (hp : PartsAt key es xs [] ys) (hroom : es.length < Pool.slotLimit) :
    (m.put key value).Yields fun (old, m') =>
      old = none ∧ m'.keyLimit = m.keyLimit ∧
        ∃ e : Entry V, e.key = key ∧ e.value = value ∧ m'.Holds (xs ++ e :: ys) := by
  unfold put
  refine Yields.bind (h.trie.insert_new h.chained_alone hp (h.live ▸ hroom)) ?_
  rintro ⟨old, trie, leaves⟩ ⟨rfl, e, hkey, hvalue, htrie, hlive, -, hchain, hlone, -, -⟩
  have hes := hp.absent_eq
  refine Yields.pure ⟨rfl, rfl, e, hkey, hvalue, .of_chained htrie ?_ ?_⟩
  · by_cases hnil : es = []
    · -- the first leaf of all stands alone, which is a chain of one
      obtain ⟨hempty, he⟩ := hlone hnil
      obtain ⟨rfl, rfl⟩ := List.append_eq_nil_iff.1 (hes.symm.trans hnil)
      exact ⟨hempty.sound, he, List.nodup_singleton _⟩
    · have hc := hchain hnil
      rwa [List.nil_append, List.append_nil] at hc
  · dsimp only
    rw [hlive, h.live, hes]
    simp only [List.length_append, List.length_cons]
    omega

theorem Holds.put_old (h : m.Holds es) (hp : PartsAt e.key es xs [e] ys) :
    (m.put e.key value).Yields fun (old, m') =>
      old = some e.value ∧ m'.keyLimit = m.keyLimit ∧ m'.Holds (xs ++ { e with value } :: ys) := by
  unfold put
  refine Yields.bind (h.trie.insert_old h.chained_alone hp) ?_
  rintro ⟨old, trie, leaves⟩ ⟨rfl, htrie, hlive, hc, -⟩
  rw [List.nil_append, List.append_nil] at hc
  refine Yields.pure ⟨rfl, rfl, .of_chained htrie hc ?_⟩
  dsimp only
  rw [hlive, h.live, hp.parts]
  simp

theorem Holds.put_faults (h : m.Holds es) (hp : PartsAt key es xs [] ys) (hfull : Pool.slotLimit ≤ es.length) :
    (m.put key value).Faults .poolExhausted := by
  unfold put
  exact Faults.bind (h.trie.insert_faults h.chained_alone hp (h.live ▸ hfull))

/-- A key that is short enough is not refused. -/
theorem insertOrKeep_eq (hlen : key.length ≤ m.keyLimit) :
    m.insertOrKeep key value = do
      let (_, m) ← m.put key value
      return m := by
  unfold insertOrKeep insert checkLength
  rw [if_neg (Nat.not_lt.2 hlen)]
  simp only [bind_assoc, pure_bind]

theorem Holds.insertOrKeep_new (h : m.Holds es) (hlen : key.length ≤ m.keyLimit) (hp : PartsAt key es xs [] ys)
    (hroom : es.length < Pool.slotLimit) :
    (m.insertOrKeep key value).Yields fun m' =>
      m'.keyLimit = m.keyLimit ∧ ∃ e : Entry V, e.key = key ∧ e.value = value ∧ m'.Holds (xs ++ e :: ys) := by
  rw [insertOrKeep_eq hlen]
  refine Yields.bind (h.put_new hp hroom) ?_
  intro result hput
  exact Yields.pure hput.2

theorem Holds.insertOrKeep_old (h : m.Holds es) (hlen : e.key.length ≤ m.keyLimit) (hp : PartsAt e.key es xs [e] ys) :
    (m.insertOrKeep e.key value).Yields fun m' =>
      m'.keyLimit = m.keyLimit ∧ m'.Holds (xs ++ { e with value } :: ys) := by
  rw [insertOrKeep_eq hlen]
  refine Yields.bind (h.put_old hp) ?_
  intro result hput
  exact Yields.pure hput.2

theorem Holds.insertOrKeep_faults (h : m.Holds es) (hlen : key.length ≤ m.keyLimit) (hp : PartsAt key es xs [] ys)
    (hfull : Pool.slotLimit ≤ es.length) : (m.insertOrKeep key value).Faults .poolExhausted := by
  rw [insertOrKeep_eq hlen]
  exact Faults.bind (h.put_faults hp hfull)

theorem Holds.modify?_old (h : m.Holds es) (hp : PartsAt e.key es xs [e] ys) (f : V → V) :
    (m.modify? e.key f).Yields fun result =>
      ∃ m', result = some m' ∧ m'.keyLimit = m.keyLimit ∧ m'.Holds (xs ++ { e with value := f e.value } :: ys) := by
  have hc := h.chained
  rw [hp.present_eq] at hc
  unfold modify?
  rw [h.trie.find?_eq hp]
  refine Yields.bind (Pool.modify_chained hc) ?_
  rintro leaves ⟨hc', hlive, -⟩
  refine Yields.pure ⟨_, rfl, rfl, .of_chained ⟨h.trie.regular, h.trie.path, ?_, ?_⟩ hc' ?_⟩
  · rw [h.trie.listing, hp.parts]
    simp
  · rw [h.trie.size, hp.parts]
    simp
  · dsimp only
    rw [hlive, h.live, hp.parts]
    simp

theorem Holds.modify?_absent (h : m.Holds es) (hp : PartsAt key es xs [] ys) (f : V → V) :
    m.modify? key f = pure none := by
  unfold modify?
  rw [h.trie.find?_eq hp]
  rfl

theorem Holds.erase_old (h : m.Holds es) (hp : PartsAt e.key es xs [e] ys) :
    (m.erase e.key).Yields fun (old, m') =>
      old = some e.value ∧ m'.keyLimit = m.keyLimit ∧ m'.Holds (xs ++ ys) := by
  unfold erase
  refine Yields.bind (h.trie.erase_old h.chained_alone hp) ?_
  rintro ⟨old, trie, leaves⟩ ⟨rfl, htrie, hlive, hc, -, -⟩
  rw [List.nil_append, List.append_nil] at hc
  refine Yields.pure ⟨rfl, rfl, .of_chained htrie hc ?_⟩
  have hlen := h.live
  rw [hp.parts] at hlen
  simp only [List.length_append, List.length_singleton] at hlen ⊢
  omega

theorem Holds.erase_absent (h : m.Holds es) (hp : PartsAt key es xs [] ys) : m.erase key = pure (none, m) := by
  unfold erase
  rw [h.trie.erase_absent hp]
  rfl

theorem Holds.eraseUnder_yields (h : m.Holds es) (start : Bytes) :
    (m.eraseUnder start).Yields fun (count, m') =>
      ∃ xs ms ys, PartsUnder start es xs ms ys ∧ count = ms.length ∧ m'.keyLimit = m.keyLimit ∧
        m'.Holds (xs ++ ys) := by
  unfold eraseUnder
  refine Yields.bind (h.trie.eraseUnder_yields h.chained_alone start) ?_
  rintro ⟨count, trie, leaves⟩ ⟨xs, ms, ys, hp, rfl, htrie, hlive, hc, -, -⟩
  rw [List.nil_append, List.append_nil] at hc
  refine Yields.pure ⟨xs, ms, ys, hp, rfl, rfl, .of_chained htrie hc ?_⟩
  have hlen := h.live
  rw [hp.parts] at hlen
  simp only [List.length_append] at hlen ⊢
  omega

theorem Holds.clear_yields (h : m.Holds es) :
    m.clear.Yields fun m' => m'.keyLimit = m.keyLimit ∧ m'.Holds [] := by
  unfold clear
  refine Yields.bind (h.eraseUnder_yields []) ?_
  rintro ⟨count, m'⟩ ⟨xs, ms, ys, hp, -, hlimit, hm⟩
  refine Yields.pure ⟨hlimit, ?_⟩
  have hrest := hp.rest_eq
  -- every key starts with no bytes, so nothing is left
  rw [List.filter_eq_nil_iff.2 fun e _ => by simp] at hrest
  rw [hrest] at hm
  exact hm

end OrderedStore.OrderedMap
