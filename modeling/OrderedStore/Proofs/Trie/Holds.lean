import Mathlib.Tactic
import OrderedStore.Proofs.Pool.Chained
import OrderedStore.Proofs.Trie.Erase
import OrderedStore.Trie.Basic

/-!
# What a trie holds

A trie *holds* a list of entries when its root is regular and lists exactly them, in their order. What a
trie does for one key is then told by the parts of the list below the key, at it, and above it.
-/

namespace OrderedStore

variable {V : Type}

namespace Entry

/-- Entries the way a node lists them. -/
def listed (es : List (Entry V)) : List (Bytes × Link) := es.map fun e => (e.key, some e.id)

@[simp] theorem listed_nil : listed ([] : List (Entry V)) = [] := rfl

@[simp] theorem listed_cons (e : Entry V) (es : List (Entry V)) :
    listed (e :: es) = (e.key, some e.id) :: listed es := rfl

@[simp] theorem listed_append (xs ys : List (Entry V)) : listed (xs ++ ys) = listed xs ++ listed ys :=
  List.map_append

theorem listed_eq_nil {es : List (Entry V)} : listed es = [] ↔ es = [] := List.map_eq_nil_iff

theorem listed_eq_append {es : List (Entry V)} {ps qs : List (Bytes × Link)} (h : listed es = ps ++ qs) :
    ∃ xs ys, es = xs ++ ys ∧ listed xs = ps ∧ listed ys = qs := List.map_eq_append_iff.1 h

theorem head?_listed (es : List (Entry V)) :
    (listed es).head?.map Prod.snd = es.head?.map fun e => some e.id := by
  cases es <;> rfl

theorem getLast?_listed (es : List (Entry V)) :
    (listed es).getLast?.map Prod.snd = es.getLast?.map fun e => some e.id := by
  unfold listed
  rw [List.getLast?_map, Option.map_map]
  rfl

theorem first_eq_join (es : List (Entry V)) : first es = ((listed es).head?.map Prod.snd).join := by
  cases es <;> rfl

theorem last_eq_join (es : List (Entry V)) : last es = ((listed es).getLast?.map Prod.snd).join := by
  rw [getLast?_listed]
  unfold last
  cases es.getLast? <;> rfl

/-- Keys ascend strictly along the entries. -/
def Ordered (es : List (Entry V)) : Prop := es.Pairwise fun a b => a.key < b.key

theorem sorted_listed {es : List (Entry V)} : Sorted (listed es) ↔ Ordered es := List.pairwise_map

theorem Ordered.nodup_keys {es : List (Entry V)} (h : Ordered es) : (es.map key).Nodup := by
  refine List.pairwise_map.2 (h.imp fun {a b} hlt heq => ?_)
  exact List.lt_irrefl b.key (heq ▸ hlt)

/-- The entries below a key, at it and above it. -/
structure PartsAt (key : Bytes) (es xs ms ys : List (Entry V)) : Prop where
  parts : es = xs ++ ms ++ ys
  below : ∀ e ∈ xs, e.key < key
  here : ∀ e ∈ ms, e.key = key
  above : ∀ e ∈ ys, key < e.key
  once : ms.length ≤ 1

theorem partsAt_nil {key : Bytes} : PartsAt key ([] : List (Entry V)) [] [] [] :=
  ⟨rfl, by simp, by simp, by simp, Nat.zero_le _⟩

/-- A key that is not there has nothing at it. -/
theorem PartsAt.absent_eq {key : Bytes} {es xs ys : List (Entry V)} (h : PartsAt key es xs [] ys) : es = xs ++ ys := by
  rw [h.parts, List.append_nil]

theorem PartsAt.present_eq {key : Bytes} {es xs ys : List (Entry V)} {e : Entry V} (h : PartsAt key es xs [e] ys) :
    es = xs ++ e :: ys := by
  rw [h.parts, List.append_assoc, List.singleton_append]

theorem PartsAt.splitsAt {key : Bytes} {es xs ms ys : List (Entry V)} (h : PartsAt key es xs ms ys) :
    SplitsAt key (listed es) (listed xs) (listed ms) (listed ys) where
  parts := by rw [h.parts, listed_append, listed_append]
  below := List.forall_mem_map.2 h.below
  here := List.forall_mem_map.2 h.here
  above := List.forall_mem_map.2 h.above

/-- Ordered entries part at every key. -/
theorem Ordered.partsAt {es : List (Entry V)} (h : Ordered es) (key : Bytes) :
    ∃ xs ms ys, PartsAt key es xs ms ys := by
  obtain ⟨ps, qs, rs, hs, honce⟩ := (sorted_listed.2 h).splitsAt key
  obtain ⟨xms, ys, rfl, hxms, rfl⟩ := listed_eq_append hs.parts
  obtain ⟨xs, ms, rfl, rfl, rfl⟩ := listed_eq_append hxms
  refine ⟨xs, ms, ys, rfl, ?_, ?_, ?_, ?_⟩
  · exact fun e he => hs.below _ (List.mem_map_of_mem he)
  · exact fun e he => hs.here _ (List.mem_map_of_mem he)
  · exact fun e he => hs.above _ (List.mem_map_of_mem he)
  · rwa [listed, List.length_map] at honce

/-- Ordered entries part at the key of any of them. -/
theorem Ordered.partsAt_mem {xs ys : List (Entry V)} {e : Entry V} (h : Ordered (xs ++ e :: ys)) :
    PartsAt e.key (xs ++ e :: ys) xs [e] ys := by
  obtain ⟨-, hys, hxs⟩ := List.pairwise_append.1 h
  refine ⟨by simp, fun x hx => hxs x hx e List.mem_cons_self, ?_, (List.pairwise_cons.1 hys).1, Nat.le_refl _⟩
  simp

/-- A key is there or it is not. -/
theorem Ordered.present_or_absent {es : List (Entry V)} (h : Ordered es) (key : Bytes) :
    (∃ xs e ys, e.key = key ∧ PartsAt key es xs [e] ys) ∨ ∃ xs ys, PartsAt key es xs [] ys := by
  obtain ⟨xs, ms, ys, hp⟩ := h.partsAt key
  rcases ms with _ | ⟨e, _ | ⟨e', ms⟩⟩
  · exact Or.inr ⟨xs, ys, hp⟩
  · exact Or.inl ⟨xs, e, ys, hp.here e List.mem_cons_self, hp⟩
  · have honce := hp.once
    simp at honce

namespace PartsAt

variable {key : Bytes} {es xs ms ys : List (Entry V)} {e : Entry V}

/-- What is left when a key is taken out. -/
theorem ordered_around (h : PartsAt key es xs ms ys) (ho : Ordered es) : Ordered (xs ++ ys) := by
  refine List.Pairwise.sublist ?_ ho
  rw [h.parts, List.append_assoc]
  exact List.Sublist.append_left (List.sublist_append_right ms ys) xs

/-- Entries in order stay so when one is put in at its place. -/
theorem ordered_with (h : PartsAt key es xs ms ys) (ho : Ordered es) (he : e.key = key) :
    Ordered (xs ++ e :: ys) := by
  have haround := h.ordered_around ho
  unfold Ordered at haround ⊢
  rw [List.pairwise_append] at haround ⊢
  obtain ⟨hx, hy, hxy⟩ := haround
  refine ⟨hx, List.pairwise_cons.2 ⟨fun b hb => he ▸ h.above b hb, hy⟩, fun a ha b hb => ?_⟩
  rcases List.mem_cons.1 hb with rfl | hb
  · exact he ▸ h.below a ha
  · exact hxy a ha b hb

/-- The entries around a key do not have it. -/
theorem ne_of_around (h : PartsAt key es xs ms ys) : ∀ e ∈ xs ++ ys, e.key ≠ key := by
  intro e he hek
  rcases List.mem_append.1 he with he | he
  · exact List.lt_irrefl key (hek ▸ h.below e he)
  · exact List.lt_irrefl key (hek ▸ h.above e he)

/-- The entries that do not have a key are the ones around it. -/
theorem mem_around (h : PartsAt key es xs ms ys) (hne : e.key ≠ key) : e ∈ es ↔ e ∈ xs ++ ys := by
  have hms : e ∉ ms := fun he => hne (h.here e he)
  rw [h.parts]
  simp [hms]

end PartsAt

/-- The entries before those whose key starts with some bytes, those, and the rest. -/
structure PartsUnder (start : Bytes) (es xs ms ys : List (Entry V)) : Prop where
  parts : es = xs ++ ms ++ ys
  before : ∀ e ∈ xs, e.key < start
  within : ∀ e ∈ ms, start <+: e.key
  after : ∀ e ∈ ys, start < e.key ∧ ¬ start <+: e.key

namespace PartsUnder

variable {start : Bytes} {es xs ms ys : List (Entry V)}

theorem not_starts (h : PartsUnder start es xs ms ys) : ∀ e ∈ xs ++ ys, ¬ start <+: e.key := by
  intro e he
  rcases List.mem_append.1 he with he | he
  · rintro ⟨t, ht⟩
    have hlt := h.before e he
    rw [← ht] at hlt
    exact Bytes.not_append_lt start t hlt
  · exact (h.after e he).2

/-- The entries within are what their own test selects. -/
theorem within_eq (h : PartsUnder start es xs ms ys) : ms = es.filter fun e => start <+: e.key := by
  have hxs : xs.filter (fun e => start <+: e.key) = [] :=
    List.filter_eq_nil_iff.2 fun e he => by simpa using h.not_starts e (List.mem_append_left _ he)
  have hys : ys.filter (fun e => start <+: e.key) = [] :=
    List.filter_eq_nil_iff.2 fun e he => by simpa using (h.after e he).2
  rw [h.parts, List.filter_append, List.filter_append, hxs, hys,
    List.filter_eq_self.2 fun e he => decide_eq_true (h.within e he), List.nil_append, List.append_nil]

/-- The others are what the opposite test selects. -/
theorem rest_eq (h : PartsUnder start es xs ms ys) : xs ++ ys = es.filter fun e => ¬ start <+: e.key := by
  have hms : ms.filter (fun e => ¬ start <+: e.key) = [] :=
    List.filter_eq_nil_iff.2 fun e he => by simpa using h.within e he
  have hrest := h.not_starts
  rw [List.forall_mem_append] at hrest
  rw [h.parts, List.filter_append, List.filter_append, hms,
    List.filter_eq_self.2 fun e he => decide_eq_true (hrest.1 e he),
    List.filter_eq_self.2 fun e he => decide_eq_true (hrest.2 e he), List.append_nil]

end PartsUnder

end Entry

namespace Trie

open Entry (listed PartsAt)

/-- The trie has these entries and no others. -/
structure Holds (t : Trie) (es : List (Entry V)) : Prop where
  regular : t.root.Regular
  path : t.root.segment = []
  listing : t.root.listing = listed es
  size : t.size = es.length

variable {t : Trie} {es xs ms ys : List (Entry V)} {key : Bytes}

theorem holds_empty (stamp : Stamp) : (empty stamp).Holds ([] : List (Entry V)) where
  regular := .intro List.Pairwise.nil (by simp [empty, Node.bare]) rfl rfl (by simp [empty, Node.bare])
    (by simp [empty, Node.bare]) (by simp [empty, Node.bare])
  path := rfl
  listing := by
    rw [Node.listing_eq]
    rfl
  size := rfl

theorem Holds.ordered (h : t.Holds es) : Entry.Ordered es := by
  rw [← Entry.sorted_listed, ← h.listing]
  exact h.regular.sorted

theorem Holds.first_eq (h : t.Holds es) : t.first = Entry.first es := by
  unfold first
  rw [h.regular.least_eq_head, h.listing, Entry.first_eq_join]

theorem Holds.last_eq (h : t.Holds es) : t.last = Entry.last es := by
  unfold last
  rw [h.regular.greatest_eq_last, h.listing, Entry.last_eq_join]

theorem Holds.isEmpty_iff (h : t.Holds es) : t.isEmpty = true ↔ es = [] := by
  unfold isEmpty
  rw [h.size, beq_iff_eq, List.length_eq_zero_iff]

theorem Holds.splitsAt (h : t.Holds es) (hp : PartsAt key es xs ms ys) :
    SplitsAt key t.root.listing (listed xs) (listed ms) (listed ys) := by
  rw [h.listing]
  exact hp.splitsAt

theorem Holds.find?_eq (h : t.Holds es) (hp : PartsAt key es xs ms ys) :
    t.find? key = ms.head?.map fun e => some e.id := by
  unfold find?
  rw [h.regular.find?_eq (h.splitsAt hp), Entry.head?_listed]

theorem Holds.neighbors_eq (h : t.Holds es) (hp : PartsAt key es xs ms ys) :
    t.neighbors key = ⟨xs.getLast?.map fun e => some e.id, ys.head?.map fun e => some e.id⟩ := by
  unfold neighbors
  rw [h.regular.neighbors_eq (h.splitsAt hp), Entry.head?_listed, Entry.getLast?_listed, Option.or_none,
    Option.or_none]

/-- **The node that covers some bytes** has the entries whose key starts with them, and knows their ends. -/
theorem Holds.covering?_parts (h : t.Holds es) (start : Bytes) :
    ∃ xs ms ys, Entry.PartsUnder start es xs ms ys ∧
      SplitsUnder start t.root.listing (listed xs) (listed ms) (listed ys) ∧
      match t.covering? start with
      | none => ms = []
      | some c => c.least = Entry.first ms ∧ c.greatest = Entry.last ms := by
  obtain ⟨ps, qs, rs, hs, hcov⟩ := h.regular.covering?_splits start
  have hparts := hs.parts
  rw [h.listing] at hparts
  -- the split of the listing is a split of the entries
  obtain ⟨xms, ys, rfl, hxms, rfl⟩ := Entry.listed_eq_append hparts
  obtain ⟨xs, ms, rfl, rfl, rfl⟩ := Entry.listed_eq_append hxms
  refine ⟨xs, ms, ys, ⟨rfl, ?_, ?_, ?_⟩, hs, ?_⟩
  · exact fun e he => hs.before _ (List.mem_map_of_mem he)
  · exact fun e he => hs.within _ (List.mem_map_of_mem he)
  · exact fun e he => hs.after _ (List.mem_map_of_mem he)
  · unfold covering?
    cases hc : t.root.covering? start with
    | none =>
        rw [hc] at hcov
        exact Entry.listed_eq_nil.1 hcov
    | some c =>
        rw [hc] at hcov
        dsimp only
        rw [Entry.first_eq_join, Entry.last_eq_join]
        exact hcov.ends

/-- **No node covers some bytes** just if they are some and no key starts with them. -/
theorem Holds.covering?_eq_none_iff {start : Bytes} (h : t.Holds es) (hp : Entry.PartsUnder start es xs ms ys) :
    t.covering? start = none ↔ start ≠ [] ∧ ms = [] := by
  obtain ⟨ps, qs, rs, hs, hcov⟩ := h.regular.covering?_splits start
  have hqs : qs = listed ms := by
    rw [hs.within_eq, h.listing, hp.within_eq, listed, listed, List.filter_map]
    rfl
  unfold covering?
  cases hc : t.root.covering? start with
  | none =>
      rw [hc] at hcov
      refine iff_of_true rfl ⟨?_, Entry.listed_eq_nil.1 (hqs.symm.trans hcov)⟩
      rintro rfl
      rw [Node.covering?_nil] at hc
      cases hc
  | some c =>
      rw [hc] at hcov
      refine iff_of_false (by simp) ?_
      rintro ⟨hstart, rfl⟩
      -- the leaves below the node found are those of the entries
      have hnil : c.listing.map Prod.snd = [] := by rw [← hcov.2, hqs]; rfl
      exact (h.regular.covering?_filled hc).elim hstart fun hne => hne (List.map_eq_nil_iff.1 hnil)

end Trie

end OrderedStore
