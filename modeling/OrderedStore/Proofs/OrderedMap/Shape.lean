import Mathlib.Tactic
import OrderedStore.Proofs.Capacity
import OrderedStore.Proofs.Trie.Shape

/-!
# The shape of a map's trie is told by its keys

Writes split nodes, drop them and merge them again, and none of this leaves a trace. Whatever calls led to two maps,
with the same keys they have tries of the same shape. So it makes no difference to the shape in which order keys were
put in or removed, which other keys came and went, and whether keys were removed at once or one by one.
-/

namespace OrderedStore

open Edit

namespace OrderedMap

/-- The shape of the map's trie. -/
def shape {V : Type} (m : OrderedMap V) : Shape := m.trie.root.shape

/-- Remove keys one by one. -/
def eraseEach {V : Type} (m : OrderedMap V) : List Bytes → Edit (OrderedMap V)
  | [] => return m
  | key :: keys => do
    let (_, m) ← m.erase key
    eraseEach m keys

variable {V W : Type} {limit limit' : Nat} {m : OrderedMap V} {s : FiniteMap V} {m' : OrderedMap W} {s' : FiniteMap W}

theorem Represents.has_iff (h : Represents limit m s) (key : Bytes) : m.trie.root.Has key ↔ key ∈ s.keys := by
  obtain ⟨-, es, hm, hs⟩ := h
  unfold Node.Has
  rw [hm.trie.listing, hs.keys]
  constructor
  · rintro ⟨link, hmem⟩
    obtain ⟨e, he, heq⟩ := List.mem_map.1 hmem
    exact ⟨e, he, congrArg Prod.fst heq⟩
  · rintro ⟨e, he, rfl⟩
    exact ⟨some e.id, List.mem_map_of_mem he⟩

/-- **Maps with the same keys have the same shape.** -/
theorem Represents.shape_unique (h : Represents limit m s) (h' : Represents limit' m' s') (hkeys : s.keys = s'.keys) :
    m.shape = m'.shape := by
  obtain ⟨-, es, hm, -⟩ := id h
  obtain ⟨-, es', hm', -⟩ := id h'
  refine hm.trie.regular.shape_unique hm'.trie.regular (hm.trie.path.trans hm'.trie.path.symm) fun key => ?_
  rw [h.has_iff, h'.has_iff, hkeys]

/-- Removing keys one by one always succeeds, and leaves the other keys. -/
theorem Represents.eraseEach_yields (h : Represents limit m s) (keys : List Bytes) :
    (m.eraseEach keys).Yields fun m' => ∃ s', Represents limit m' s' ∧ s'.keys = s.keys \ keys.toFinset := by
  induction keys generalizing m s with
  | nil => exact Yields.pure ⟨s, h, by simp⟩
  | cons key keys ih =>
      rw [eraseEach]
      refine Yields.bind (h.erase_yields key) ?_
      rintro ⟨old, m'⟩ ⟨-, hm'⟩
      refine (ih hm').mono ?_
      rintro m'' ⟨s'', hm'', hkeys⟩
      refine ⟨s'', hm'', ?_⟩
      rw [hkeys, List.toFinset_cons, Finset.sdiff_insert]
      exact Finset.erase_sdiff_comm s.keys keys.toFinset key

/-- Whether a key is taken or refused, without it the keys are what they were. -/
theorem answer_insert_keys {s' : FiniteMap V} {key : Bytes} {value : V} {reply : Reply V}
    (hanswer : s.answer limit (.insert key value) = .ok (reply, s')) : s'.keys.erase key = s.keys.erase key := by
  rw [FiniteMap.answer] at hanswer
  split at hanswer
  · obtain ⟨-, rfl⟩ := Prod.mk.inj (Except.ok.inj hanswer)
    rfl
  · split at hanswer
    · cases hanswer
    · obtain ⟨-, rfl⟩ := Prod.mk.inj (Except.ok.inj hanswer)
      exact Finset.erase_insert_eq_erase s.keys key

/-- What it means that the keys of a map tell the shape of its trie. -/
structure ShapedByKeys (m : OrderedMap V) : Prop where
  /-- Whatever calls led to another map, with the same keys it has the same shape. -/
  unique : ∀ {W : Type} {m' : OrderedMap W}, m'.Reachable → (∀ key, m'.contains key = m.contains key) →
    m'.shape = m.shape
  /-- Keys with a common beginning may be removed at once or one by one, in any order. -/
  erased : ∀ (start : Bytes) (keys : List Bytes), (∀ key, key ∈ keys ↔ start <+: key ∧ m.contains key = true) →
    (m.eraseUnder start).Yields fun (_, whole) => (m.eraseEach keys).Yields fun each => each.shape = whole.shape
  /-- A new key that is put in and removed leaves no trace. It cannot be put in only if every slot is in use. -/
  restored : ∀ (key : Bytes) (value : V) (now : Stamp), m.contains key = false →
    (m.perform (.insert key value)).Comes now m.leaves.Full fun (_, longer) =>
      (longer.erase key).Yields fun (_, shorter) => shorter.shape = m.shape

/-- **The shape of a trie depends only on the keys it holds**, for all maps that calls lead to. -/
theorem shapedByKeys_of_reachable (h : m.Reachable) : m.ShapedByKeys := by
  obtain ⟨limit, s, hm⟩ := h.represents
  refine ⟨?_, ?_, ?_⟩
  · intro W m' h' hsame
    obtain ⟨limit', s', hm'⟩ := h'.represents
    refine hm'.shape_unique hm ?_
    ext key
    rw [hm'.mem_keys_iff, hm.mem_keys_iff, hsame]
  · intro start keys hkeys
    refine (hm.eraseUnder_yields start).mono ?_
    rintro ⟨count, whole⟩ ⟨-, hwhole⟩
    refine (hm.eraseEach_yields keys).mono ?_
    rintro each ⟨s', heach, hs'⟩
    refine heach.shape_unique hwhole ?_
    ext key
    rw [hs', Finset.mem_sdiff, List.mem_toFinset, hkeys, FiniteMap.eraseUnder, Finset.mem_filter, ← hm.mem_keys_iff]
    tauto
  · intro key value now habsent
    have hmeets := hm.meets (.insert key value)
    have hcomes := hmeets.comes (hm.answer_exhausted (.insert key value)) now
    refine hcomes.ensuring ?_
    rintro ⟨reply, longer⟩ next hrun
    obtain ⟨s', hanswer, hlonger⟩ := hmeets.of_run hrun
    refine (hlonger.erase_yields key).mono ?_
    rintro ⟨old, shorter⟩ ⟨-, hshorter⟩
    have hnew : key ∉ s.keys := by rw [hm.mem_keys_iff, habsent]; exact Bool.false_ne_true
    refine hshorter.shape_unique hm ?_
    exact (answer_insert_keys hanswer).trans (Finset.erase_eq_of_notMem hnew)

/-! ## Two histories -/

/-- A reachable map has the keys that its root lists. -/
theorem Reachable.contains_iff (h : m.Reachable) (key : Bytes) :
    m.contains key = true ↔ key ∈ m.trie.root.listing.map Prod.fst := by
  obtain ⟨limit, s, hm⟩ := h.represents
  rw [← hm.mem_keys_iff, ← hm.has_iff, List.mem_map]
  exact ⟨fun ⟨link, hmem⟩ => ⟨(key, link), hmem, rfl⟩, fun ⟨x, hmem, heq⟩ => ⟨x.2, heq ▸ hmem⟩⟩

/-- Two keys that part after one byte. -/
def forked : OrderedMap Nat := afterAll perform (empty Nat 0 8) 1 [.insert [1, 2] 5, .insert [1, 3] 6]

/-- The same keys put in the other way around, with a key at the fork that came and went and one beyond it. -/
def forkedAgain : OrderedMap String :=
  afterAll perform (empty String 7 2) 8 [.insert [1, 3] "a", .insert [1] "b", .insert [1, 2] "c", .insert [1, 2, 4] "d",
    .modify [1, 3] (fun old => old), .insert [9] "e", .eraseUnder [9], .erase [1]]

theorem forked_shapedByKeys :
    forked.Reachable ∧ forkedAgain.Reachable ∧ (∀ key, forkedAgain.contains key = forked.contains key) ∧
      forkedAgain.shape = forked.shape ∧
      ((forked.eraseUnder [1]).Yields fun (_, whole) =>
        (forked.eraseEach [[1, 3], [1, 2]]).Yields fun each => each.shape = whole.shape) ∧
      (forked.perform (.insert [1] 7)).Comes 3 forked.leaves.Full fun (_, longer) =>
        (longer.erase [1]).Yields fun (_, shorter) => shorter.shape = forked.shape := by
  have hforked : forked.Reachable := ⟨0, 8, LeadsTo.here.afterAll _ _⟩
  have hagain : forkedAgain.Reachable := ⟨7, 2, LeadsTo.here.afterAll _ _⟩
  have hkeys : forked.trie.root.listing.map Prod.fst = [[1, 2], [1, 3]] := by decide +kernel
  have hkeys' : forkedAgain.trie.root.listing.map Prod.fst = [[1, 2], [1, 3]] := by decide +kernel
  have hcontains : ∀ key, forked.contains key = true ↔ key ∈ [[1, 2], [1, 3]] := by
    intro key
    rw [hforked.contains_iff, hkeys]
  have hsame : ∀ key, forkedAgain.contains key = forked.contains key := by
    intro key
    rw [Bool.eq_iff_iff, hcontains, hagain.contains_iff, hkeys']
  have h := shapedByKeys_of_reachable hforked
  refine ⟨hforked, hagain, hsame, h.unique hagain hsame, h.erased [1] _ ?_, h.restored [1] 7 3 ?_⟩
  · intro key
    rw [hcontains]
    constructor
    · intro hkey
      have heither := List.mem_pair.1 hkey
      refine ⟨?_, List.mem_pair.2 heither.symm⟩
      rcases heither with rfl | rfl
      · decide
      · decide
    · rintro ⟨-, hkey⟩
      exact List.mem_pair.2 (List.mem_pair.1 hkey).symm
  · rw [← Bool.not_eq_true, hcontains]
    decide

end OrderedMap

end OrderedStore
