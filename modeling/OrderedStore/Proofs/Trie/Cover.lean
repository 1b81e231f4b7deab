import Mathlib.Tactic
import OrderedStore.Proofs.Trie.Search

/-!
# The node that covers some bytes

The keys that start with some bytes form one stretch of the listing. If a node covers the bytes, the
stretch is what lies below that node, and the node remembers its ends; if no node does, the stretch is
empty.
-/

namespace OrderedStore.Node

variable {n : Node} {b : UInt8} {bs : Bytes} {l r : List (Edge Node)} {e : Edge Node}

/-- What lies to the right of an edge or a gap lies above the key that leads there and leaves it. -/
theorem beyond_right (hn : n.Regular) (hmem : ∀ x ∈ r, x ∈ n.edges) (hgt : ∀ x ∈ r, b < x.label) (bs : Bytes) :
    ∀ x ∈ edgeListing r, b :: bs < x.1 ∧ ¬ b :: bs <+: x.1 := by
  intro x hx
  refine ⟨lt_right hn hmem hgt bs x hx, ?_⟩
  obtain ⟨e, he, y, -, rfl⟩ := mem_edgeListing.1 hx
  obtain ⟨s, hs⟩ := (hn.edge (hmem e he)).segment_eq
  rw [hs, List.cons_append, List.cons_prefix_cons]
  rintro ⟨rfl, -⟩
  -- an edge with that label would start with the bytes, but its label is greater
  exact Std.lt_irrefl (hgt e he)

/-- Bytes that part from a segment are no beginning of what lies behind it. -/
theorem not_prefix_under {segment key : Bytes} (hout : Bytes.after? segment key = none)
    (hstarts : Bytes.starts key segment = false) (y : Bytes) : ¬ key <+: segment ++ y := by
  intro hkey
  -- of two beginnings of one string, one is a beginning of the other
  rcases List.prefix_or_prefix_of_prefix hkey (List.prefix_append segment y) with h | ⟨t, ht⟩
  · rw [← Bytes.starts_iff, hstarts] at h
    simp at h
  · rw [← ht, Bytes.after?_append] at hout
    simp at hout

theorem Miss.splitsUnder (h : n.Miss b l r) (hn : n.Regular) (bs : Bytes) :
    SplitsUnder (b :: bs) n.listing (ownListing n.leaf ++ edgeListing l) [] (edgeListing r) where
  parts := (h.splitsAt hn bs).parts
  before := (h.splitsAt hn bs).below
  within := by simp
  after := beyond_right hn h.mem_right h.right bs

theorem Hit.splitsUnder (h : n.Hit b l e r) (hn : n.Regular) {rest : Bytes}
    {xs ms ys : List (Bytes × Link)} (hrest : b :: bs = e.child.segment ++ rest)
    (hs : SplitsUnder rest e.child.listing xs ms ys) :
    SplitsUnder (b :: bs) n.listing (ownListing n.leaf ++ edgeListing l ++ under e.child.segment xs)
      (under e.child.segment ms) (under e.child.segment ys ++ edgeListing r) := by
  rw [h.listing, hrest]
  refine hs.widen ?_ ?_
  · rw [← hrest]
    exact left_lt hn h.mem_left h.left bs
  · rw [← hrest]
    exact beyond_right hn h.mem_right h.right bs

/-- The segment behind the edge goes on after the bytes, so everything behind it is within. -/
theorem Hit.splitsUnder_all (h : n.Hit b l e r) (hn : n.Regular)
    (hstarts : b :: bs <+: e.child.segment) :
    SplitsUnder (b :: bs) n.listing (ownListing n.leaf ++ edgeListing l)
      (under e.child.segment e.child.listing) (edgeListing r) where
  parts := h.listing
  before := left_lt hn h.mem_left h.left bs
  within := by
    intro x hx
    obtain ⟨y, -, rfl⟩ := mem_under.1 hx
    exact hstarts.trans (List.prefix_append _ _)
  after := beyond_right hn h.mem_right h.right bs

/-- The segment behind the edge parts from the bytes, so nothing is within. -/
theorem Hit.splitsUnder_none (h : n.Hit b l e r) (hn : n.Regular)
    (hout : Bytes.after? e.child.segment (b :: bs) = none)
    (hstarts : Bytes.starts (b :: bs) e.child.segment = false) :
    ∃ xs ys, SplitsUnder (b :: bs) n.listing xs [] ys := by
  have hunder : ∀ x ∈ under e.child.segment e.child.listing, ¬ b :: bs <+: x.1 := by
    intro x hx
    obtain ⟨y, -, rfl⟩ := mem_under.1 hx
    exact not_prefix_under hout hstarts y.1
  rcases segment_lt_or_gt hout with hlt | hgt
  · -- what hangs behind the edge lies above the bytes, but none of it starts with them
    have hs := h.splitsAt_before hn hlt
    refine ⟨_, _, hs.parts, hs.below, by simp, fun x hx => ⟨hs.above x hx, ?_⟩⟩
    rcases List.mem_append.1 hx with hx | hx
    · exact hunder x hx
    · exact (beyond_right hn h.mem_right h.right bs x hx).2
  · have hs := h.splitsAt_after hn hgt hout
    exact ⟨_, _, hs.parts, hs.below, by simp, beyond_right hn h.mem_right h.right bs⟩

/-- With no bytes left, everything below the node is within. -/
theorem splitsUnder_nil (n : Node) : SplitsUnder [] n.listing [] n.listing [] where
  parts := by simp
  before := by simp
  within := fun _ _ => List.nil_prefix
  after := by simp

theorem covering?_nil (n : Node) : n.covering? [] = some n := by
  rw [covering?]

theorem covering?_of_none (hc : n.child? b = none) : n.covering? (b :: bs) = none := by
  rw [covering?]
  split
  · rfl
  · simp_all

theorem covering?_of_some {c : Node} (hc : n.child? b = some c) :
    n.covering? (b :: bs) =
      if Bytes.starts (b :: bs) c.segment then some c
      else (Bytes.after? c.segment (b :: bs)).bind c.covering? := by
  rw [covering?]
  split
  · simp_all
  · rename_i c' hc'
    obtain rfl := Option.some.inj (hc.symm.trans hc')
    cases Bytes.after? c.segment (b :: bs) <;> rfl

/-- A stretch of a listing and the node it hangs below, if there is one. -/
def Covers (c : Option Node) (within : List (Bytes × Link)) : Prop :=
  match c with
  | none => within = []
  | some c => c.Regular ∧ within.map Prod.snd = c.listing.map Prod.snd

theorem Covers.under {c : Option Node} {ms : List (Bytes × Link)} (h : Covers c ms) (segment : Bytes) :
    Covers c (under segment ms) := by
  cases c with
  | none =>
      rw [Covers] at h
      rw [h]
      exact rfl
  | some c =>
      refine ⟨h.1, ?_⟩
      rw [← h.2, OrderedStore.under, List.map_map]
      rfl

/-- **The node found covers exactly the stretch of keys that start with the bytes.** -/
theorem Regular.covering?_splits {n : Node} (hn : n.Regular) (start : Bytes) :
    ∃ xs ms ys, SplitsUnder start n.listing xs ms ys ∧ Covers (n.covering? start) ms := by
  induction n, start using covering?.induct with
  | case1 n => exact ⟨_, _, _, n.splitsUnder_nil, by rw [covering?_nil]; exact ⟨hn, rfl⟩⟩
  | case2 n b bs hc =>
      obtain ⟨l, r, h⟩ := hn.miss_of_child? hc
      exact ⟨_, _, _, h.splitsUnder hn bs, by rw [covering?_of_none hc]; rfl⟩
  | case3 n b bs c hc hstarts =>
      obtain ⟨l, e, r, h, rfl, he⟩ := hn.hit_of_child? hc
      refine ⟨_, _, _, h.splitsUnder_all hn (Bytes.starts_iff.1 hstarts), ?_⟩
      rw [covering?_of_some hc, if_pos hstarts]
      refine ⟨he.regular, ?_⟩
      rw [OrderedStore.under, List.map_map]
      rfl
  | case4 n b bs c hc hstarts hout =>
      obtain ⟨l, e, r, h, rfl, he⟩ := hn.hit_of_child? hc
      obtain ⟨xs, ys, hs⟩ := h.splitsUnder_none hn hout (eq_false_of_ne_true hstarts)
      refine ⟨xs, [], ys, hs, ?_⟩
      rw [covering?_of_some hc, if_neg hstarts, hout]
      rfl
  | case5 n b bs c hc hstarts rest hrest ih =>
      obtain ⟨l, e, r, h, rfl, he⟩ := hn.hit_of_child? hc
      obtain ⟨xs, ms, ys, hs, hcov⟩ := ih he.regular
      refine ⟨_, _, _, h.splitsUnder hn (Bytes.after?_eq_some_iff.1 hrest) hs, ?_⟩
      rw [covering?_of_some hc, if_neg hstarts, hrest, Option.bind_some]
      exact hcov.under _

/-- The node found has leaves below it, unless it is the one that the search starts from. -/
theorem Regular.covering?_filled {n c : Node} {start : Bytes} (hn : n.Regular) (hc : n.covering? start = some c) :
    start = [] ∨ c.listing ≠ [] := by
  induction n, start using covering?.induct with
  | case1 n => exact Or.inl rfl
  | case2 n b bs hchild =>
      rw [covering?_of_none hchild] at hc
      cases hc
  | case3 n b bs child hchild hstarts =>
      obtain ⟨l, e, r, -, rfl, he⟩ := hn.hit_of_child? hchild
      rw [covering?_of_some hchild, if_pos hstarts] at hc
      obtain rfl := Option.some.inj hc
      exact Or.inr he.listing_ne_nil
  | case4 n b bs child hchild hstarts hout =>
      rw [covering?_of_some hchild, if_neg hstarts, hout] at hc
      cases hc
  | case5 n b bs child hchild hstarts rest hrest ih =>
      obtain ⟨l, e, r, -, rfl, he⟩ := hn.hit_of_child? hchild
      rw [covering?_of_some hchild, if_neg hstarts, hrest, Option.bind_some] at hc
      -- the search may stop at the child, which is not needless either
      rcases ih he.regular hc with rfl | hfilled
      · rw [covering?_nil] at hc
        obtain rfl := Option.some.inj hc
        exact Or.inr he.listing_ne_nil
      · exact Or.inr hfilled

/-- The covering node remembers the ends of the stretch. -/
theorem Covers.ends {c : Node} {ms : List (Bytes × Link)} (h : Covers (some c) ms) :
    c.least = (ms.head?.map Prod.snd).join ∧ c.greatest = (ms.getLast?.map Prod.snd).join := by
  obtain ⟨hc, hmap⟩ := h
  rw [hc.least_eq_head, hc.greatest_eq_last, ← List.head?_map, ← List.head?_map, ← List.getLast?_map,
    ← List.getLast?_map, hmap]
  exact ⟨rfl, rfl⟩

end OrderedStore.Node
