import Mathlib.Tactic
import OrderedStore.Proofs.OrderedMap.Audit
import OrderedStore.Proofs.OrderedMap.Shape
import OrderedStore.Proofs.Trie.Renewal

/-!
# How large the trie of a map is

Behind every edge of a regular node there is one worth having, which holds a leaf or is a place where two ways part. A
leaf pays for its own node. Where ways part without a leaf, each way has leaves of its own, and of two ways one pays for
the node. So there are fewer nodes below the root than twice the leaves, and the root may be one more.

Every segment behind an edge starts with the label of the edge. So the way to a node has no more steps than it spells
bytes, and the way to a leaf spells the key.
-/

namespace OrderedStore

namespace Node

variable {n m : Node} {way : List Node} {path : Bytes}

/-! ## How many nodes there are -/

/-- What every edge has to spare is one at least. -/
theorem behind_add_le {edges : List (Edge Node)}
    (h : ∀ e ∈ edges, e.child.nodes.length + 1 ≤ 2 * e.child.listing.length) :
    (behind edges).length + edges.length ≤ 2 * (edgeListing edges).length := by
  induction edges with
  | nil => exact Nat.le_refl 0
  | cons e edges ih =>
      have hhere := h e List.mem_cons_self
      have hrest := ih fun x hx => h x (List.mem_cons_of_mem e hx)
      have hunder : (under e.child.segment e.child.listing).length = e.child.listing.length := List.length_map _
      rw [behind_cons, edgeListing_cons, List.length_append, List.length_append, List.length_cons, hunder]
      omega

/-- **Below a node worth having there are fewer nodes than twice the leaves.** -/
theorem Regular.nodes_add_le (hn : n.Regular) (hneeded : n.Needed) : n.nodes.length + 1 ≤ 2 * n.listing.length := by
  induction hn using Regular.induct with
  | step n hn ih =>
      have hbehind := behind_add_le fun e he => ih e he (hn.edge he).needed
      rw [nodes_eq, listing_eq, List.length_cons, List.length_append]
      rcases hneeded with hleaf | htwo
      · obtain ⟨link, hleaf⟩ := Option.isSome_iff_exists.1 hleaf
        rw [hleaf, ownListing_some, List.length_singleton]
        omega
      · omega

/-- Below any regular node there are at most twice as many nodes as leaves, if there are leaves at all. -/
theorem Regular.nodes_le (hn : n.Regular) (hne : n.listing ≠ []) : n.nodes.length ≤ 2 * n.listing.length := by
  have hbehind := behind_add_le fun e he => (hn.edge he).regular.nodes_add_le (hn.edge he).needed
  rw [listing_eq] at hne
  rw [nodes_eq, listing_eq, List.length_cons, List.length_append]
  cases hleaf : n.leaf with
  | some link =>
      rw [ownListing_some, List.length_singleton]
      omega
  | none =>
      rw [hleaf, ownListing_none, List.nil_append] at hne
      have hedges : n.edges ≠ [] := fun hnil => hne (by rw [hnil, edgeListing_nil])
      have hpos := List.length_pos_iff.2 hedges
      omega

/-! ## How far down they are -/

/-- The nodes on the way from a node down to another, both of them included. -/
inductive Way : Node → List Node → Node → Prop
  | here (n : Node) : Way n [n] n
  | down {n m : Node} {e : Edge Node} {way : List Node} (he : e ∈ n.edges) (h : Way e.child way m) :
    Way n (n :: way) m

/-- A way leads where its segments lead. -/
theorem Way.reaches (h : n.Way way m) : n.Reaches (way.flatMap segment) m := by
  induction h with
  | here n =>
      rw [List.flatMap_singleton]
      exact .here n
  | down he _ ih => exact .behind he ih

theorem Reaches.exists_way (h : n.Reaches path m) : ∃ way, n.Way way m := by
  induction h with
  | here n => exact ⟨[n], .here n⟩
  | behind he _ ih =>
      obtain ⟨way, hway⟩ := ih
      exact ⟨_, .down he hway⟩

/-- **A way has no more steps than it spells bytes** after the segment that it starts with. -/
theorem Way.length_add_le (h : n.Way way m) (hn : n.Regular) :
    way.length + n.segment.length ≤ (way.flatMap segment).length + 1 := by
  induction h with
  | here n =>
      rw [List.flatMap_singleton, List.length_singleton]
      omega
  | @down n m e way he _ ih =>
      have hrest := ih (hn.edge he).regular
      obtain ⟨s, hs⟩ := (hn.edge he).segment_eq
      rw [hs, List.length_cons] at hrest
      rw [List.flatMap_cons, List.length_append, List.length_cons]
      omega

end Node

namespace OrderedMap

variable {V : Type} {m : OrderedMap V} {s : FiniteMap V} {es : List (Entry V)}

/-- The keys bound the trie of the map. -/
structure Compressed (m : OrderedMap V) (s : FiniteMap V) : Prop where
  /-- There are at most two nodes for each key, the root among them. -/
  nodes : 1 ≤ s.card → m.trie.root.nodes.length ≤ 2 * s.card
  /-- On the way from the root to the leaf of a key there is at most one node for each byte of the key, beside the
  root. -/
  ways : ∀ key ∈ s.keys, ∃ link, m.trie.find? key = some link ∧
    (∃ way x, m.trie.root.Way way x ∧ x.leaf = some link) ∧
    ∀ way x, m.trie.root.Way way x → x.leaf = some link → way.length ≤ key.length + 1

/-- **A map that shows the entries of a finite map is compressed.** -/
theorem Shows.compressed (h : m.Shows es) (hs : s.Lists es) : m.Compressed s where
  nodes := by
    have hlisted : m.trie.root.listing.length = s.card := by
      rw [h.trie.listing, Entry.listed, List.length_map, hs.card_eq]
    rw [← hlisted]
    exact fun hpos => h.trie.regular.nodes_le (List.ne_nil_of_length_pos hpos)
  ways := by
    intro key hkey
    obtain ⟨e, he, rfl⟩ := (hs.keys key).1 hkey
    obtain ⟨xs, ys, hes⟩ := List.append_of_mem he
    have hparts : Entry.PartsAt e.key es xs [e] ys := hes ▸ (hes ▸ h.trie.ordered).partsAt_mem
    refine ⟨some e.id, h.trie.find?_eq hparts, ?_, fun way x hway hleaf => ?_⟩
    · obtain ⟨x, hreaches, hleaf⟩ := (h.trie.leafAt_iff e.key (some e.id)).2 ⟨e, he, rfl, rfl⟩
      obtain ⟨way, hway⟩ := hreaches.exists_way
      exact ⟨way, x, hway, hleaf⟩
    · -- the way spells the key, because there is one entry only with that leaf
      obtain ⟨e', he', hpath, hid⟩ := (h.trie.leafAt_iff _ _).1 ⟨x, hway.reaches, hleaf⟩
      obtain rfl := List.inj_on_of_nodup_map h.linked.nodup he' he (Option.some.inj hid)
      have hlength := hway.length_add_le h.trie.regular
      rwa [h.trie.path, List.length_nil, Nat.add_zero, ← hpath] at hlength

/-- **Whatever calls led to a map, its trie is compressed.** -/
theorem compressed_of_reachable (h : m.Reachable) : ∃ s, m.Agrees s ∧ m.Compressed s := by
  obtain ⟨limit, s, -, es, hm, hs⟩ := h.represents
  exact ⟨s, hm.toShows.agrees hs, hm.toShows.compressed hs⟩

/-- Two keys that part have as many nodes as there may be, and their ways are as long as they may be. -/
theorem forked_compressed :
    forked.Reachable ∧ (∃ s, forked.Agrees s ∧ forked.Compressed s) ∧ forked.size = 2 ∧
      forked.trie.root.nodes.length = 4 := by
  have hreachable : forked.Reachable := ⟨0, 8, LeadsTo.here.afterAll _ _⟩
  exact ⟨hreachable, compressed_of_reachable hreachable, by decide +kernel, by decide +kernel⟩

end OrderedMap

end OrderedStore
