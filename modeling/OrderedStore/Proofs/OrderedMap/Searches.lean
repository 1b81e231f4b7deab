import Mathlib.Tactic
import OrderedStore.Proofs.OrderedMap.Reads

/-!
# What searches find

The neighbours of a key are the nearest stored keys on either side of it, with the key itself left out; its bounds
are the nearest ones with the key counted in. Whatever key is asked for, the searches find the leaves of exactly
these keys. So a walk up from a key starts at its lower bound and meets every entry from there on, and a walk down
starts at its upper bound.

The keys that start with some bytes are one stretch of the chain. The search for the bytes ends at the node that
remembers the two ends of that stretch, and fails only if no key starts with them.

The keys that a string starts with are beginnings of one another, and the search passes all of them. It ends with the
longest.
-/

namespace OrderedStore

variable {V : Type}

/-- The stored keys that pass a test are those of the entries that pass it. -/
theorem FiniteMap.Lists.mem_filter {s : FiniteMap V} {es : List (Entry V)} (h : s.Lists es) (test : Bytes → Prop)
    [DecidablePred test] (key : Bytes) :
    key ∈ s.keys ∧ test key ↔ ∃ e ∈ es.filter fun e => test e.key, e.key = key := by
  rw [h.keys]
  constructor
  · rintro ⟨⟨e, he, rfl⟩, htest⟩
    exact ⟨e, List.mem_filter.2 ⟨he, decide_eq_true htest⟩, rfl⟩
  · rintro ⟨e, he, rfl⟩
    obtain ⟨he, htest⟩ := List.mem_filter.1 he
    exact ⟨⟨e, he, rfl⟩, of_decide_eq_true htest⟩

namespace OrderedMap

/-- The link leads to the leaf of the best of some keys, where a look-up finds it too. It leads nowhere if there are
no such keys, and only then. -/
structure Finds (m : OrderedMap V) (s : FiniteMap V) (Best : Set Bytes → Bytes → Prop) (keys : Set Bytes)
    (link : Link) : Prop where
  missing : link = none ↔ keys = ∅
  found : link ≠ none → ∃ leaf, m.leaves.get link = .ok leaf ∧ Best keys leaf.key ∧
    m.trie.find? leaf.key = some link ∧ s.value leaf.key = some leaf.value

/-- What a map finds next to a key, and what it walks over from there. -/
structure Nearest (m : OrderedMap V) (s : FiniteMap V) (key : Bytes) : Prop where
  neighbors : ∃ below above : Link, m.trie.neighbors key = ⟨below.map some, above.map some⟩ ∧
    m.Finds s IsGreatest {k | k ∈ s.keys ∧ k < key} below ∧ m.Finds s IsLeast {k | k ∈ s.keys ∧ key < k} above
  atOrAbove : m.Finds s IsLeast {k | k ∈ s.keys ∧ key ≤ k} (m.trie.atOrAbove key)
  atOrBelow : m.Finds s IsGreatest {k | k ∈ s.keys ∧ k ≤ key} (m.trie.atOrBelow key)
  walkFrom : List.map Leaf.item <$> (m.walkFrom key).toList = .ok (s.byKey.filter fun row => key ≤ row.1)
  walkDownFrom :
    List.map Leaf.item <$> (m.walkDownFrom key).toList = .ok (s.byKey.filter fun row => row.1 ≤ key).reverse

variable {m : OrderedMap V} {s : FiniteMap V} {es xs ms ys : List (Entry V)} {e : Entry V} {key : Bytes}
  {keys : Set Bytes} {Best : Set Bytes → Bytes → Prop}

theorem finds_none (hkeys : keys = ∅) : m.Finds s Best keys none :=
  ⟨iff_of_true rfl hkeys, fun hne => absurd rfl hne⟩

theorem Shows.finds_entry (h : m.Shows (xs ++ e :: ys)) (hs : s.Lists (xs ++ e :: ys)) (hmem : e.key ∈ keys)
    (hbest : Best keys e.key) : m.Finds s Best keys (some e.id) where
  missing := iff_of_false (by simp) (Set.nonempty_of_mem hmem).ne_empty
  found := by
    intro _
    refine ⟨_, Pool.get_ok h.linked.leaf?_mid, hbest, ?_, hs.value e (by simp)⟩
    rw [h.trie.find?_eq h.trie.ordered.partsAt_mem]
    rfl

/-- The first of a stretch of entries has the least of their keys. -/
theorem Shows.finds_first (h : m.Shows es) (hs : s.Lists es) (hes : es = xs ++ ms ++ ys)
    (hkeys : ∀ key, key ∈ keys ↔ ∃ e ∈ ms, e.key = key) : m.Finds s IsLeast keys (Entry.first ms) := by
  subst hes
  cases ms with
  | nil =>
      refine finds_none (Set.eq_empty_of_forall_notMem fun key hkey => ?_)
      simpa using (hkeys key).1 hkey
  | cons e ms =>
      rw [List.append_assoc, List.cons_append] at h hs
      have hmem : e.key ∈ keys := (hkeys e.key).2 ⟨e, List.mem_cons_self, rfl⟩
      refine h.finds_entry hs hmem ⟨hmem, fun key hkey => ?_⟩
      -- the others come after it
      obtain ⟨e', he', rfl⟩ := (hkeys key).1 hkey
      obtain ⟨-, hordered, -⟩ := List.pairwise_append.1 h.trie.ordered
      rcases List.mem_cons.1 he' with rfl | he'
      · exact List.le_refl _
      · exact Std.le_of_lt ((List.pairwise_cons.1 hordered).1 e' (List.mem_append_left ys he'))

/-- The last of a stretch of entries has the greatest of their keys. -/
theorem Shows.finds_last (h : m.Shows es) (hs : s.Lists es) (hes : es = xs ++ ms ++ ys)
    (hkeys : ∀ key, key ∈ keys ↔ ∃ e ∈ ms, e.key = key) : m.Finds s IsGreatest keys (Entry.last ms) := by
  subst hes
  rcases List.eq_nil_or_concat' ms with rfl | ⟨ms, e, rfl⟩
  · refine finds_none (Set.eq_empty_of_forall_notMem fun key hkey => ?_)
    simpa using (hkeys key).1 hkey
  · rw [show xs ++ (ms ++ [e]) ++ ys = xs ++ ms ++ e :: ys by simp] at h hs
    have hmem : e.key ∈ keys := (hkeys e.key).2 ⟨e, by simp, rfl⟩
    rw [Entry.last_concat]
    refine h.finds_entry hs hmem ⟨hmem, fun key hkey => ?_⟩
    -- the others come before it
    obtain ⟨e', he', rfl⟩ := (hkeys key).1 hkey
    obtain ⟨-, -, hordered⟩ := List.pairwise_append.1 h.trie.ordered
    rcases List.mem_append.1 he' with he' | he'
    · exact Std.le_of_lt (hordered e' (List.mem_append_right xs he') e List.mem_cons_self)
    · exact List.mem_singleton.1 he' ▸ List.le_refl _

/-- **The searches find the nearest keys** of a map that shows the entries of a finite map. -/
theorem Shows.nearest (h : m.Shows es) (hs : s.Lists es) (key : Bytes) : m.Nearest s key := by
  obtain ⟨xs, ms, ys, hp⟩ := h.trie.ordered.partsAt key
  have hreads := h.readsLike hs
  -- each search looks among the entries of one stretch
  have hkeys (test : Bytes → Prop) [DecidablePred test] {part : List (Entry V)}
      (hpart : part = es.filter fun e => test e.key) (k : Bytes) :
      k ∈ {k | k ∈ s.keys ∧ test k} ↔ ∃ e ∈ part, e.key = k := by
    rw [hpart]
    exact hs.mem_filter test k
  have hbelow : es = [] ++ xs ++ (ms ++ ys) := by simpa using hp.parts
  have habove : es = xs ++ ms ++ ys ++ [] := by simpa using hp.parts
  have hfrom : es = xs ++ (ms ++ ys) ++ [] := by simpa using hp.parts
  have hupTo : es = [] ++ (xs ++ ms) ++ ys := by simpa using hp.parts
  refine ⟨⟨Entry.last xs, Entry.first ys, ?_, ?_, ?_⟩, ?_, ?_, hreads.forth (.upFrom key), hreads.forth (.downFrom key)⟩
  · rw [h.trie.neighbors_eq hp, Entry.last, Entry.first, Option.map_map, Option.map_map]
    rfl
  · exact h.finds_last hs hbelow (hkeys (· < key) hp.below_eq)
  · exact h.finds_first hs habove (hkeys (key < ·) hp.above_eq)
  · rw [h.trie.atOrAbove_eq hp]
    exact h.finds_first hs hfrom (hkeys (key ≤ ·) hp.from_eq)
  · rw [h.trie.atOrBelow_eq hp]
    exact h.finds_last hs hupTo (hkeys (· ≤ key) hp.upTo_eq)

/-- **Whatever key is asked for, a reachable map finds the nearest keys.** -/
theorem nearest_of_reachable (h : m.Reachable) : ∃ s, m.Agrees s ∧ ∀ key, m.Nearest s key := by
  obtain ⟨limit, s, -, es, hm, hs⟩ := h.represents
  exact ⟨s, hm.toShows.agrees hs, hm.toShows.nearest hs⟩

/-- Four keys, one of them the beginning of two others. -/
def nested : OrderedMap Nat :=
  afterAll perform (empty Nat 0 8) 1 [.insert [1, 2, 5] 0, .insert [7] 1, .insert [1] 2, .insert [1, 2, 3] 3]

theorem nested_nearest :
    nested.Reachable ∧ (∃ s, nested.Agrees s ∧ ∀ key, nested.Nearest s key) ∧
      nested.trie.neighbors [1, 2, 4] = ⟨some (some ⟨3⟩), some (some ⟨0⟩)⟩ ∧
      nested.trie.neighbors [] = ⟨none, some (some ⟨2⟩)⟩ ∧ nested.trie.atOrBelow [1, 2] = some ⟨2⟩ := by
  have hreachable : nested.Reachable := ⟨0, 8, LeadsTo.here.afterAll 1 _⟩
  exact ⟨hreachable, nearest_of_reachable hreachable, by decide +kernel, by decide +kernel, by decide +kernel⟩

/-! ## The stretch under some bytes -/

/-- What a map finds for some bytes that keys may start with. -/
structure FindsUnder (m : OrderedMap V) (s : FiniteMap V) (start : Bytes) : Prop where
  walkUnder : List.map Leaf.item <$> (m.walkUnder start).toList = .ok (s.byKey.filter fun row => start <+: row.1)
  missing : m.trie.covering? start = none ↔ start ≠ [] ∧ ∀ key ∈ s.keys, ¬ start <+: key
  /-- The node found remembers the ends of the stretch, of all that the chain has. -/
  found : ∀ n, m.trie.covering? start = some n → ∃ es xs ms ys, m.leaves.Linked es ∧ s.Lists es ∧
    Entry.PartsUnder start es xs ms ys ∧ n.least = Entry.first ms ∧ n.greatest = Entry.last ms

/-- **A search for some bytes finds the stretch of the entries that start with them.** -/
theorem Shows.findsUnder (h : m.Shows es) (hs : s.Lists es) (start : Bytes) : m.FindsUnder s start := by
  obtain ⟨xs, ms, ys, hp, -, hcov⟩ := h.trie.covering?_parts start
  have hnil : ms = [] ↔ ∀ key ∈ s.keys, ¬ start <+: key := by
    rw [hp.within_eq, List.filter_eq_nil_iff]
    constructor
    · intro hout key hkey hstart
      obtain ⟨e, he, rfl⟩ := (hs.keys key).1 hkey
      exact hout e he (decide_eq_true hstart)
    · intro hout e he hstart
      exact hout e.key ((hs.keys e.key).2 ⟨e, he, rfl⟩) (of_decide_eq_true hstart)
  refine ⟨(h.readsLike hs).forth (.under start), ?_, fun n hn => ?_⟩
  · rw [h.trie.covering?_eq_none_iff hp, hnil]
  · rw [hn] at hcov
    exact ⟨es, xs, ms, ys, h.linked, hs, hp, hcov⟩

/-- **Whatever bytes are asked for, a reachable map finds the keys that start with them.** -/
theorem findsUnder_of_reachable (h : m.Reachable) : ∃ s, m.Agrees s ∧ ∀ start, m.FindsUnder s start := by
  obtain ⟨limit, s, -, es, hm, hs⟩ := h.represents
  exact ⟨s, hm.toShows.agrees hs, hm.toShows.findsUnder hs⟩

theorem nested_findsUnder :
    nested.Reachable ∧ (∃ s, nested.Agrees s ∧ ∀ start, nested.FindsUnder s start) ∧
      (nested.trie.covering? [1, 2]).map Node.leaf = some none ∧ (nested.trie.covering? [1, 2, 4]).isNone ∧
      List.map Leaf.key <$> (nested.walkUnder [1, 2]).toList = .ok [[1, 2, 3], [1, 2, 5]] := by
  have hreachable : nested.Reachable := ⟨0, 8, LeadsTo.here.afterAll 1 _⟩
  exact ⟨hreachable, findsUnder_of_reachable hreachable, by decide +kernel, by decide +kernel, by decide +kernel⟩

/-! ## The longest key that a string starts with -/

/-- What a map finds for a string that keys may be beginnings of. -/
structure FindsLongest (m : OrderedMap V) (s : FiniteMap V) (query : Bytes) : Prop where
  missing : m.longest? query = .ok none ↔ ∀ key ∈ s.keys, ¬ key <+: query
  /-- Of the keys that the string starts with, the string itself and no bytes at all among them, the one found is
  longer than every other. -/
  found : (∃ key ∈ s.keys, key <+: query) → ∃ leaf, m.longest? query = .ok (some leaf) ∧
    s.value leaf.key = some leaf.value ∧ leaf.key <+: query ∧
    ∀ key ∈ s.keys, key <+: query → key ≠ leaf.key → key.length < leaf.key.length

/-- **A search for the longest beginning of a string finds it.** -/
theorem Shows.findsLongest (h : m.Shows es) (hs : s.Lists es) (query : Bytes) : m.FindsLongest s query := by
  obtain ⟨met, hmet, hitem⟩ := h.longest?_eq hs query
  have hnone : s.longest query = none ↔ ∀ key ∈ s.keys, ¬ key <+: query := FiniteMap.longest_eq_none_iff
  constructor
  · rw [hmet, Except.ok.injEq, ← hnone, ← hitem, Option.map_eq_none_iff]
  · rintro ⟨key, hkey, hstart⟩
    cases met with
    | none => exact absurd hstart (hnone.1 hitem.symm key hkey)
    | some leaf =>
        obtain ⟨hvalue, hleaf, hlongest⟩ := FiniteMap.longest_eq_some hitem.symm
        refine ⟨leaf, hmet, hvalue, hleaf, fun key hkey hstart hne => ?_⟩
        have hshort := hlongest key hkey hstart
        exact Nat.lt_of_le_of_ne hshort.length_le fun hlen => hne (hshort.eq_of_length hlen)

/-- **Whatever string is asked for, a reachable map finds the longest key that it starts with.** -/
theorem findsLongest_of_reachable (h : m.Reachable) : ∃ s, m.Agrees s ∧ ∀ query, m.FindsLongest s query := by
  obtain ⟨limit, s, -, es, hm, hs⟩ := h.represents
  exact ⟨s, hm.toShows.agrees hs, hm.toShows.findsLongest hs⟩

theorem nested_findsLongest :
    nested.Reachable ∧ (∃ s, nested.Agrees s ∧ ∀ query, nested.FindsLongest s query) ∧
      Option.map Leaf.key <$> nested.longest? [1, 2, 3, 4] = .ok (some [1, 2, 3]) ∧
      Option.map Leaf.key <$> nested.longest? [1, 2] = .ok (some [1]) ∧
      Option.map Leaf.key <$> nested.longest? [2] = .ok none := by
  have hreachable : nested.Reachable := ⟨0, 8, LeadsTo.here.afterAll 1 _⟩
  exact ⟨hreachable, findsLongest_of_reachable hreachable, by decide +kernel, by decide +kernel, by decide +kernel⟩

end OrderedMap

end OrderedStore
