import Mathlib.Tactic
import OrderedStore.Proofs.Trie.Listing
import OrderedStore.Trie.Search

/-!
# Searching a regular node

Every search goes down one edge at a time, so all of them rest on one account of a step: the first byte of
the key either finds an edge or falls between two, and what is passed by on the left lies below the key,
what is passed by on the right above it. The main statements read the searches off the listing: a look-up
finds what the listing holds at the key, the neighbours are what it holds next to the key, and the node
covering some bytes holds exactly the stretch of keys that start with them.
-/

namespace OrderedStore

namespace Bytes

theorem lt_append {k s : Bytes} (h : k < s) (y : Bytes) : k < s ++ y := by
  cases y with
  | nil => rwa [List.append_nil]
  | cons b y => exact List.lt_trans h (lt_of_append s (b :: y) (by simp))

/-- A string above another one and not a continuation of it is above all its continuations. -/
theorem append_lt {s k : Bytes} (h : s < k) (hn : after? s k = none) (y : Bytes) : s ++ y < k := by
  induction s generalizing k with
  | nil => simp [after?] at hn
  | cons a s ih =>
      cases k with
      | nil => exact absurd h (List.not_lt_nil _)
      | cons b k =>
          rw [List.cons_lt_cons_iff] at h
          rw [List.cons_append, List.cons_lt_cons_iff]
          rcases h with hab | ⟨rfl, hsk⟩
          · exact Or.inl hab
          · rw [after?, if_pos rfl] at hn
            exact Or.inr ⟨rfl, ih hsk hn⟩

end Bytes

namespace Node

/-! ## One step down -/

/-- The edge that a first byte finds, and what lies to its left and to its right. -/
structure Hit (n : Node) (b : UInt8) (l : List (Edge Node)) (e : Edge Node) (r : List (Edge Node)) : Prop where
  edges : n.edges = l ++ e :: r
  label : e.label = b
  left : ∀ x ∈ l, x.label < b
  right : ∀ x ∈ r, b < x.label
  spot : Edge.locate n.edges b = .on l.length

/-- The gap between edges that a first byte falls into. -/
structure Miss (n : Node) (b : UInt8) (l r : List (Edge Node)) : Prop where
  edges : n.edges = l ++ r
  left : ∀ x ∈ l, x.label < b
  right : ∀ x ∈ r, b < x.label
  spot : Edge.locate n.edges b = .before l.length

theorem Regular.hit_or_miss {n : Node} (h : n.Regular) (b : UInt8) :
    (∃ l e r, n.Hit b l e r) ∨ ∃ l r, n.Miss b l r := by
  rcases Edge.locate_cases h.ascending b with ⟨l, e, r, h1, h2, h3, h4, h5⟩ | ⟨l, r, h1, h2, h3, h4⟩
  · exact Or.inl ⟨l, e, r, h1, h2, h3, h4, h5⟩
  · exact Or.inr ⟨l, r, h1, h2, h3, h4⟩

variable {n : Node} {b : UInt8} {l r : List (Edge Node)} {e : Edge Node}

theorem Hit.getElem? (h : n.Hit b l e r) : n.edges[l.length]? = some e := by
  rw [h.edges, List.getElem?_append_right (Nat.le_refl _), Nat.sub_self]
  rfl

theorem Hit.child? (h : n.Hit b l e r) : n.child? b = some e.child := by
  unfold Node.child? Edge.child?
  rw [h.spot]
  dsimp only
  rw [h.getElem?]
  rfl

theorem Miss.child? (h : n.Miss b l r) : n.child? b = none := by
  unfold Node.child? Edge.child?
  rw [h.spot]

theorem Hit.mem (h : n.Hit b l e r) : e ∈ n.edges := by
  rw [h.edges]
  simp

theorem Hit.mem_left (h : n.Hit b l e r) : ∀ x ∈ l, x ∈ n.edges := by
  rw [h.edges]
  exact fun x hx => List.mem_append_left _ hx

theorem Hit.mem_right (h : n.Hit b l e r) : ∀ x ∈ r, x ∈ n.edges := by
  rw [h.edges]
  exact fun x hx => List.mem_append_right _ (List.mem_cons_of_mem _ hx)

theorem Miss.mem_left (h : n.Miss b l r) : ∀ x ∈ l, x ∈ n.edges := by
  rw [h.edges]
  exact fun x hx => List.mem_append_left _ hx

theorem Miss.mem_right (h : n.Miss b l r) : ∀ x ∈ r, x ∈ n.edges := by
  rw [h.edges]
  exact fun x hx => List.mem_append_right _ hx

/-- What a node holds, around the edge that was found. -/
theorem Hit.listing (h : n.Hit b l e r) :
    n.listing = (ownListing n.leaf ++ edgeListing l) ++ under e.child.segment e.child.listing ++
      edgeListing r := by
  rw [listing_eq, h.edges, edgeListing_append, edgeListing_cons]
  simp only [List.append_assoc]

/-- What a node holds to the left of an edge or a gap lies below every key that leads there. -/
theorem left_lt (hn : n.Regular) (hmem : ∀ x ∈ l, x ∈ n.edges) (hlt : ∀ x ∈ l, x.label < b) (bs : Bytes) :
    ∀ x ∈ ownListing n.leaf ++ edgeListing l, x.1 < b :: bs := by
  intro x hx
  rcases List.mem_append.1 hx with hx | hx
  · exact ownListing_lt b bs x hx
  · exact edgeListing_lt (fun e he => hn.edge (hmem e he)) hlt bs x hx

theorem lt_right (hn : n.Regular) (hmem : ∀ x ∈ r, x ∈ n.edges) (hgt : ∀ x ∈ r, b < x.label) (bs : Bytes) :
    ∀ x ∈ edgeListing r, b :: bs < x.1 := lt_edgeListing (fun e he => hn.edge (hmem e he)) hgt bs

/-- The listing around a gap. -/
theorem Miss.splitsAt (h : n.Miss b l r) (hn : n.Regular) (bs : Bytes) :
    SplitsAt (b :: bs) n.listing (ownListing n.leaf ++ edgeListing l) [] (edgeListing r) where
  parts := by
    rw [listing_eq, h.edges, edgeListing_append]
    simp only [List.append_assoc, List.append_nil]
  below := left_lt hn h.mem_left h.left bs
  here := by simp
  above := lt_right hn h.mem_right h.right bs

/-- The listing around a key that goes on below the edge found. -/
theorem Hit.splitsAt (h : n.Hit b l e r) (hn : n.Regular) {bs rest : Bytes}
    {xs ms ys : List (Bytes × Link)} (hrest : b :: bs = e.child.segment ++ rest)
    (hs : SplitsAt rest e.child.listing xs ms ys) :
    SplitsAt (b :: bs) n.listing (ownListing n.leaf ++ edgeListing l ++ under e.child.segment xs)
      (under e.child.segment ms) (under e.child.segment ys ++ edgeListing r) := by
  rw [h.listing, hrest]
  refine hs.widen ?_ ?_
  · rw [← hrest]
    exact left_lt hn h.mem_left h.left bs
  · rw [← hrest]
    exact lt_right hn h.mem_right h.right bs

/-- The listing around a key that sorts before everything behind the edge found. -/
theorem Hit.splitsAt_before (h : n.Hit b l e r) (hn : n.Regular) {bs : Bytes} (hlt : b :: bs < e.child.segment) :
    SplitsAt (b :: bs) n.listing (ownListing n.leaf ++ edgeListing l) []
      (under e.child.segment e.child.listing ++ edgeListing r) where
  parts := by
    rw [h.listing]
    simp only [List.append_assoc, List.append_nil]
  below := left_lt hn h.mem_left h.left bs
  here := by simp
  above := by
    intro x hx
    rcases List.mem_append.1 hx with hx | hx
    · obtain ⟨y, -, rfl⟩ := mem_under.1 hx
      exact Bytes.lt_append hlt _
    · exact lt_right hn h.mem_right h.right bs x hx

/-- The listing around a key that sorts behind everything behind the edge found. -/
theorem Hit.splitsAt_after (h : n.Hit b l e r) (hn : n.Regular) {bs : Bytes} (hgt : e.child.segment < b :: bs)
    (hout : Bytes.after? e.child.segment (b :: bs) = none) :
    SplitsAt (b :: bs) n.listing
      (ownListing n.leaf ++ edgeListing l ++ under e.child.segment e.child.listing) [] (edgeListing r) where
  parts := by
    rw [h.listing]
    simp only [List.append_assoc, List.append_nil]
  below := by
    intro x hx
    rcases List.mem_append.1 hx with hx | hx
    · exact left_lt hn h.mem_left h.left bs x hx
    · obtain ⟨y, -, rfl⟩ := mem_under.1 hx
      exact Bytes.append_lt hgt hout _
  here := by simp
  above := lt_right hn h.mem_right h.right bs

/-- A key that leaves the edge found sorts before everything behind it or after everything. -/
theorem segment_lt_or_gt {segment key : Bytes} (hout : Bytes.after? segment key = none) :
    key < segment ∨ segment < key := by
  rcases Std.lt_trichotomy key segment with hlt | rfl | hgt
  · exact Or.inl hlt
  · have := Bytes.after?_append key []
    rw [List.append_nil, hout] at this
    simp at this
  · exact Or.inr hgt

/-- The listing around the key that ends at the node itself. -/
theorem Regular.splitsAt_nil (hn : n.Regular) :
    SplitsAt [] n.listing [] (ownListing n.leaf) (edgeListing n.edges) where
  parts := by rw [listing_eq, List.nil_append]
  below := by simp
  here := by
    intro x hx
    cases hl : n.leaf with
    | none => simp [hl] at hx
    | some link =>
        rw [hl, ownListing_some, List.mem_singleton] at hx
        rw [hx]
  above := nil_lt_edgeListing fun e he => hn.edge he

/-- A child found behind a label stands behind an edge that the label hits. -/
theorem Regular.hit_of_child? {c : Node} (hn : n.Regular) (hc : n.child? b = some c) :
    ∃ l e r, n.Hit b l e r ∧ e.child = c ∧ RegularEdge e := by
  -- a label with a child behind it cannot miss
  rcases hn.hit_or_miss b with ⟨l, e, r, h⟩ | ⟨l, r, h⟩
  · refine ⟨l, e, r, h, ?_, hn.edge h.mem⟩
    rw [h.child?, Option.some.injEq] at hc
    exact hc
  · rw [h.child?] at hc
    simp at hc

theorem Regular.miss_of_child? (hn : n.Regular) (hc : n.child? b = none) : ∃ l r, n.Miss b l r := by
  rcases hn.hit_or_miss b with ⟨l, e, r, h⟩ | h
  · rw [h.child?] at hc
    simp at hc
  · exact h

/-! ## Look-up -/

theorem find?_nil (n : Node) : n.find? [] = n.leaf := by
  rw [find?]

theorem find?_of_none {bs : Bytes} (hc : n.child? b = none) : n.find? (b :: bs) = none := by
  rw [find?]
  split
  · rfl
  · simp_all

theorem find?_of_some {c : Node} {bs : Bytes} (hc : n.child? b = some c) :
    n.find? (b :: bs) = (Bytes.after? c.segment (b :: bs)).bind c.find? := by
  rw [find?]
  split
  · simp_all
  · rename_i c' hc'
    obtain rfl := Option.some.inj (hc.symm.trans hc')
    cases Bytes.after? c.segment (b :: bs) <;> rfl

/-- **A look-up finds what the listing holds at the key.** -/
theorem Regular.find?_splits {n : Node} (hn : n.Regular) (key : Bytes) :
    ∃ xs ms ys, SplitsAt key n.listing xs ms ys ∧ n.find? key = ms.head?.map Prod.snd := by
  induction n, key using find?.induct with
  | case1 n =>
      refine ⟨_, _, _, hn.splitsAt_nil, ?_⟩
      rw [find?_nil]
      cases n.leaf <;> rfl
  | case2 n b bs hc =>
      obtain ⟨l, r, h⟩ := hn.miss_of_child? hc
      exact ⟨_, _, _, h.splitsAt hn bs, find?_of_none hc⟩
  | case3 n b bs c hc hout =>
      obtain ⟨l, e, r, h, rfl, he⟩ := hn.hit_of_child? hc
      have hfind : n.find? (b :: bs) = none := by rw [find?_of_some hc, hout, Option.bind_none]
      -- the key leaves the trie inside the segment, on one side of everything behind it
      rcases segment_lt_or_gt hout with hlt | hgt
      · exact ⟨_, _, _, h.splitsAt_before hn hlt, hfind⟩
      · exact ⟨_, _, _, h.splitsAt_after hn hgt hout, hfind⟩
  | case4 n b bs c hc rest hrest ih =>
      obtain ⟨l, e, r, h, rfl, he⟩ := hn.hit_of_child? hc
      obtain ⟨xs, ms, ys, hs, hfind⟩ := ih he.regular
      refine ⟨_, _, _, h.splitsAt hn (Bytes.after?_eq_some_iff.1 hrest) hs, ?_⟩
      rw [find?_of_some hc, hrest, Option.bind_some, hfind, head?_under]

/-- A look-up by any split of the listing. -/
theorem Regular.find?_eq {n : Node} (hn : n.Regular) {key : Bytes} {xs ms ys : List (Bytes × Link)}
    (hs : SplitsAt key n.listing xs ms ys) : n.find? key = ms.head?.map Prod.snd := by
  obtain ⟨xs', ms', ys', hs', hfind⟩ := hn.find?_splits key
  obtain ⟨-, rfl, -⟩ := hs.unique hs'
  exact hfind

/-! ## Neighbours -/

/-- The nearest leaf before an edge or a gap, among the edges to the left and the node's own leaf. -/
def nearestLeft (n : Node) (l : List (Edge Node)) : Option Link :=
  (l.getLast?.map (·.child.greatest)).or n.leaf

theorem getLast?_left (hn : n.Regular) (hmem : ∀ x ∈ l, x ∈ n.edges) :
    (ownListing n.leaf ++ edgeListing l).getLast?.map Prod.snd = n.nearestLeft l := by
  rw [List.getLast?_append, Option.map_or, getLast?_edgeListing fun e he => (hn.edge (hmem e he)).bounded]
  unfold nearestLeft
  cases n.leaf <;> rfl

theorem head?_right (hn : n.Regular) (hmem : ∀ x ∈ r, x ∈ n.edges) :
    (edgeListing r).head?.map Prod.snd = r.head?.map (·.child.least) :=
  head?_edgeListing fun e he => (hn.edge (hmem e he)).bounded

theorem getElem?_before {α β : Type} (f : α → β) (l t : List α) :
    (if l.length = 0 then none else (l ++ t)[l.length - 1]?.map f) = l.getLast?.map f := by
  cases l with
  | nil => rfl
  | cons a l =>
      rw [if_neg (by simp), List.getElem?_append_left (by simp), List.getLast?_eq_getElem?]

theorem neighbors_nil (n : Node) (seen : Neighbors) :
    n.neighbors [] seen = ⟨seen.below, (n.edges.head?.map (·.child.least)).or seen.above⟩ := by
  rw [neighbors]

theorem Miss.neighbors (h : n.Miss b l r) (bs : Bytes) (seen : Neighbors) :
    n.neighbors (b :: bs) seen =
      ⟨(n.nearestLeft l).or seen.below, (r.head?.map (·.child.least)).or seen.above⟩ := by
  rw [Node.neighbors]
  split
  · rw [h.spot, h.edges]
    unfold Spot.index nearestLeft
    dsimp only
    rw [getElem?_before, List.getElem?_append_right (Nat.le_refl _), Nat.sub_self, ← List.head?_eq_getElem?,
      Option.or_assoc]
  · rename_i c hc
    rw [h.child?] at hc
    simp at hc

theorem Hit.neighbors (h : n.Hit b l e r) (bs : Bytes) (seen : Neighbors) :
    n.neighbors (b :: bs) seen =
      match Bytes.after? e.child.segment (b :: bs) with
      | some rest => e.child.neighbors rest
          ⟨(n.nearestLeft l).or seen.below, (r.head?.map (·.child.least)).or seen.above⟩
      | none =>
        if b :: bs < e.child.segment then ⟨(n.nearestLeft l).or seen.below, some e.child.least⟩
        else ⟨some e.child.greatest, (r.head?.map (·.child.least)).or seen.above⟩ := by
  have hnext : (l ++ e :: r)[l.length + 1]? = r.head? := by
    rw [List.getElem?_append_right (by omega), Nat.add_sub_cancel_left, List.head?_eq_getElem?]
    rfl
  rw [Node.neighbors]
  split
  · rename_i hc
    rw [h.child?] at hc
    simp at hc
  · rename_i c hc
    obtain rfl := Option.some.inj (h.child?.symm.trans hc)
    rw [h.spot, h.edges]
    unfold Spot.index nearestLeft
    cases Bytes.after? e.child.segment (b :: bs) with
    | some rest =>
        dsimp only
        rw [getElem?_before, hnext, Option.or_assoc]
    | none =>
        dsimp only
        rw [getElem?_before, hnext, Option.or_assoc]

/-- **The neighbours of a key are what the listing holds next to it.** -/
theorem Regular.neighbors_splits {n : Node} (hn : n.Regular) (key : Bytes) (seen : Neighbors) :
    ∃ xs ms ys, SplitsAt key n.listing xs ms ys ∧
      n.neighbors key seen =
        ⟨(xs.getLast?.map Prod.snd).or seen.below, (ys.head?.map Prod.snd).or seen.above⟩ := by
  induction n, key using find?.induct generalizing seen with
  | case1 n =>
      refine ⟨_, _, _, hn.splitsAt_nil, ?_⟩
      rw [neighbors_nil, head?_right hn fun x hx => hx]
      rfl
  | case2 n b bs hc =>
      obtain ⟨l, r, h⟩ := hn.miss_of_child? hc
      refine ⟨_, _, _, h.splitsAt hn bs, ?_⟩
      rw [h.neighbors, getLast?_left hn h.mem_left, head?_right hn h.mem_right]
  | case3 n b bs c hc hout =>
      obtain ⟨l, e, r, h, rfl, he⟩ := hn.hit_of_child? hc
      obtain ⟨hne, hhead, hlast⟩ := he.bounded
      have hu := under_ne_nil e.child.segment hne
      rcases segment_lt_or_gt hout with hlt | hgt
      · refine ⟨_, _, _, h.splitsAt_before hn hlt, ?_⟩
        rw [h.neighbors, hout]
        dsimp only
        rw [if_pos hlt, getLast?_left hn h.mem_left, List.head?_append_of_ne_nil _ hu, head?_under, hhead,
          Option.some_or]
      · refine ⟨_, _, _, h.splitsAt_after hn hgt hout, ?_⟩
        rw [h.neighbors, hout]
        dsimp only
        rw [if_neg (List.lt_asymm hgt), head?_right hn h.mem_right, List.getLast?_append_of_ne_nil _ hu,
          getLast?_under, hlast, Option.some_or]
  | case4 n b bs c hc rest hrest ih =>
      obtain ⟨l, e, r, h, rfl, he⟩ := hn.hit_of_child? hc
      obtain ⟨xs, ms, ys, hs, hnear⟩ :=
        ih he.regular ⟨(n.nearestLeft l).or seen.below, (r.head?.map (·.child.least)).or seen.above⟩
      refine ⟨_, _, _, h.splitsAt hn (Bytes.after?_eq_some_iff.1 hrest) hs, ?_⟩
      rw [h.neighbors, hrest]
      dsimp only
      rw [hnear, List.getLast?_append, Option.map_or, getLast?_left hn h.mem_left, getLast?_under,
        List.head?_append, Option.map_or, head?_right hn h.mem_right, head?_under, Option.or_assoc,
        Option.or_assoc]

/-- The neighbours by any split of the listing. -/
theorem Regular.neighbors_eq {n : Node} (hn : n.Regular) {key : Bytes} {xs ms ys : List (Bytes × Link)}
    (hs : SplitsAt key n.listing xs ms ys) (seen : Neighbors) :
    n.neighbors key seen =
      ⟨(xs.getLast?.map Prod.snd).or seen.below, (ys.head?.map Prod.snd).or seen.above⟩ := by
  obtain ⟨xs', ms', ys', hs', hnear⟩ := hn.neighbors_splits key seen
  obtain ⟨rfl, -, rfl⟩ := hs.unique hs'
  exact hnear

end Node

end OrderedStore
