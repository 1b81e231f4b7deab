import Mathlib.Tactic
import OrderedStore.Proofs.Trie.Edges
import OrderedStore.Proofs.Trie.Split

/-!
# What a node holds

A node is read as a listing: the keys below it, counted from the node's own end, each with the link to its
leaf. A *regular* node keeps the rules of a trie everywhere below. The listing of a regular node comes in
key order without repetition, and its first and last links are the ones the node remembers.
-/

namespace OrderedStore.Node

/-- The keys below a node with their links, in the order of the edges. A node's own leaf comes first. -/
def listing (n : Node) : List (Bytes × Link) :=
  (n.leaf.map fun link => (([] : Bytes), link)).toList ++
    n.edges.attach.flatMap fun ⟨e, _⟩ => under e.child.segment e.child.listing
termination_by sizeOf n
decreasing_by exact sizeOf_child_lt (by assumption)

/-- The listing of a node's own leaf. -/
def ownListing (leaf : Option Link) : List (Bytes × Link) := (leaf.map fun link => (([] : Bytes), link)).toList

/-- The listing of what lies behind edges. -/
def edgeListing (edges : List (Edge Node)) : List (Bytes × Link) :=
  edges.flatMap fun e => under e.child.segment e.child.listing

theorem listing_eq (n : Node) : n.listing = ownListing n.leaf ++ edgeListing n.edges := by
  rw [listing]
  simp [ownListing, edgeListing, under]

@[simp] theorem ownListing_none : ownListing none = [] := rfl

@[simp] theorem ownListing_some (link : Link) : ownListing (some link) = [([], link)] := rfl

@[simp] theorem edgeListing_nil : edgeListing [] = [] := rfl

@[simp] theorem edgeListing_cons (e : Edge Node) (edges : List (Edge Node)) :
    edgeListing (e :: edges) = under e.child.segment e.child.listing ++ edgeListing edges := rfl

@[simp] theorem edgeListing_append (l r : List (Edge Node)) :
    edgeListing (l ++ r) = edgeListing l ++ edgeListing r := List.flatMap_append

theorem mem_edgeListing {edges : List (Edge Node)} {x : Bytes × Link} :
    x ∈ edgeListing edges ↔ ∃ e ∈ edges, ∃ y ∈ e.child.listing, (e.child.segment ++ y.1, y.2) = x := by
  unfold edgeListing
  simp only [List.mem_flatMap, mem_under]

/-! ## Regular nodes -/

/-- A node that is worth having: it holds a leaf, or at least two ways part at it. -/
def Needed (n : Node) : Prop := n.leaf.isSome ∨ 2 ≤ n.edges.length

/-- The rules of a trie, for a node and everything below it: edges ascend, a label is the first byte of
the segment behind it, no child is needless, a leaf leads somewhere, and the first and last leaf are
remembered rightly. -/
inductive Regular : Node → Prop
  | intro {n : Node} (ascending : Edge.Ascending n.edges) (leads : n.leaf ≠ some none)
      (least : n.least = leastOf n.leaf n.edges) (greatest : n.greatest = greatestOf n.leaf n.edges)
      (labelled : ∀ e ∈ n.edges, e.child.segment.head? = some e.label)
      (needed : ∀ e ∈ n.edges, e.child.Needed) (below : ∀ e ∈ n.edges, e.child.Regular) : Regular n

/-- The rules of a trie for an edge and everything behind it. -/
structure RegularEdge (e : Edge Node) : Prop where
  labelled : e.child.segment.head? = some e.label
  needed : e.child.Needed
  regular : e.child.Regular

namespace Regular

variable {n : Node}

theorem ascending (h : n.Regular) : Edge.Ascending n.edges := by cases h; assumption

theorem leads (h : n.Regular) : n.leaf ≠ some none := by cases h; assumption

theorem least_eq (h : n.Regular) : n.least = leastOf n.leaf n.edges := by cases h; assumption

theorem greatest_eq (h : n.Regular) : n.greatest = greatestOf n.leaf n.edges := by cases h; assumption

theorem edge (h : n.Regular) {e : Edge Node} (he : e ∈ n.edges) : RegularEdge e := by
  cases h with
  | intro _ _ _ _ labelled needed below => exact ⟨labelled e he, needed e he, below e he⟩

/-- Induction over a regular node: what holds of a node once it holds behind all its edges. -/
@[elab_as_elim]
theorem induct {P : (n : Node) → n.Regular → Prop}
    (step : ∀ (n : Node) (h : n.Regular), (∀ (e : Edge Node) (he : e ∈ n.edges), P e.child (h.edge he).regular) →
      P n h)
    {n : Node} (h : n.Regular) : P n h := by
  induction h with
  | intro h1 h2 h3 h4 h5 h6 h7 ih => exact step _ (.intro h1 h2 h3 h4 h5 h6 h7) fun e he => ih e he

/-- A refreshed node is regular once its edges are. -/
theorem refresh (hasc : Edge.Ascending n.edges) (hleaf : n.leaf ≠ some none)
    (hedge : ∀ e ∈ n.edges, RegularEdge e) : n.refresh.Regular :=
  .intro hasc hleaf rfl rfl (fun e he => (hedge e he).labelled) (fun e he => (hedge e he).needed)
    fun e he => (hedge e he).regular

/-- Neither its segment nor its stamp makes a node regular. -/
theorem relocate (h : n.Regular) (stamp : Stamp) (segment : Bytes) :
    ({ n with stamp, segment } : Node).Regular := by
  cases h with
  | intro h1 h2 h3 h4 h5 h6 h7 => exact .intro h1 h2 h3 h4 h5 h6 h7

end Regular

theorem listing_congr {n m : Node} (hleaf : n.leaf = m.leaf) (hedges : n.edges = m.edges) :
    n.listing = m.listing := by
  rw [listing_eq, listing_eq, hleaf, hedges]

@[simp] theorem listing_relocate (n : Node) (stamp : Stamp) (segment : Bytes) :
    ({ n with stamp, segment } : Node).listing = n.listing := listing_congr rfl rfl

@[simp] theorem listing_refresh (n : Node) : n.refresh.listing = n.listing := listing_congr rfl rfl

@[simp] theorem segment_refresh (n : Node) : n.refresh.segment = n.segment := rfl

/-! ## Order -/

theorem RegularEdge.segment_eq {e : Edge Node} (h : RegularEdge e) : ∃ s, e.child.segment = e.label :: s := by
  have hl := h.labelled
  cases hs : e.child.segment with
  | nil => simp [hs] at hl
  | cons b s =>
      rw [hs, List.head?_cons, Option.some.injEq] at hl
      exact ⟨s, by rw [hl]⟩

/-- Whatever lies behind smaller labels lies below every key with a greater first byte. -/
theorem edgeListing_lt {edges : List (Edge Node)} {b : UInt8} (hedge : ∀ e ∈ edges, RegularEdge e)
    (hlt : ∀ e ∈ edges, e.label < b) (bs : Bytes) : ∀ x ∈ edgeListing edges, x.1 < b :: bs := by
  intro x hx
  obtain ⟨e, he, y, -, rfl⟩ := mem_edgeListing.1 hx
  obtain ⟨s, hs⟩ := (hedge e he).segment_eq
  rw [hs, List.cons_append, List.cons_lt_cons_iff]
  exact Or.inl (hlt e he)

/-- Whatever lies behind greater labels lies above every key with a smaller first byte. -/
theorem lt_edgeListing {edges : List (Edge Node)} {b : UInt8} (hedge : ∀ e ∈ edges, RegularEdge e)
    (hgt : ∀ e ∈ edges, b < e.label) (bs : Bytes) : ∀ x ∈ edgeListing edges, b :: bs < x.1 := by
  intro x hx
  obtain ⟨e, he, y, -, rfl⟩ := mem_edgeListing.1 hx
  obtain ⟨s, hs⟩ := (hedge e he).segment_eq
  rw [hs, List.cons_append, List.cons_lt_cons_iff]
  exact Or.inl (hgt e he)

theorem ownListing_lt {leaf : Option Link} (b : UInt8) (bs : Bytes) : ∀ x ∈ ownListing leaf, x.1 < b :: bs := by
  intro x hx
  cases leaf with
  | none => simp at hx
  | some link =>
      rw [ownListing_some, List.mem_singleton] at hx
      exact hx ▸ List.nil_lt_cons b bs

theorem nil_lt_edgeListing {edges : List (Edge Node)} (hedge : ∀ e ∈ edges, RegularEdge e) :
    ∀ x ∈ edgeListing edges, [] < x.1 := by
  intro x hx
  obtain ⟨e, he, y, -, rfl⟩ := mem_edgeListing.1 hx
  obtain ⟨s, hs⟩ := (hedge e he).segment_eq
  rw [hs]
  exact List.nil_lt_cons _ _

/-- **The listing of a regular node is sorted.** -/
theorem Regular.sorted {n : Node} (h : n.Regular) : Sorted n.listing := by
  induction h with
  | @intro n hasc hleads hleast hgreatest hlab hneed hbelow ih =>
    have hedge : ∀ e ∈ n.edges, RegularEdge e := fun e he => ⟨hlab e he, hneed e he, hbelow e he⟩
    have hedges : Sorted (edgeListing n.edges) := by
      generalize n.edges = edges at hasc ih hedge
      induction edges with
      | nil => exact List.Pairwise.nil
      | cons e es ihe =>
          unfold Edge.Ascending at hasc
          rw [List.pairwise_cons] at hasc
          -- within one edge by induction, across edges because their labels ascend
          refine List.pairwise_append.2 ⟨(ih e List.mem_cons_self).under _, ihe hasc.2
            (fun x hx => ih x (List.mem_cons_of_mem _ hx)) (fun x hx => hedge x (List.mem_cons_of_mem _ hx)), ?_⟩
          intro x hx y hy
          obtain ⟨z, -, rfl⟩ := mem_under.1 hx
          obtain ⟨s, hs⟩ := (hedge e List.mem_cons_self).segment_eq
          rw [hs]
          exact lt_edgeListing (fun x hx => hedge x (List.mem_cons_of_mem _ hx)) hasc.1 _ y hy
    rw [listing_eq]
    refine List.pairwise_append.2 ⟨?_, hedges, ?_⟩
    · cases n.leaf <;> simp
    · intro x hx y hy
      have hy' := nil_lt_edgeListing hedge y hy
      cases hl : n.leaf with
      | none => simp [hl] at hx
      | some link =>
          rw [hl, ownListing_some, List.mem_singleton] at hx
          exact hx ▸ hy'

/-! ## First and last -/

theorem under_ne_nil {α : Type} (segment : Bytes) {l : List (Bytes × α)} (h : l ≠ []) :
    under segment l ≠ [] := fun hn => h (List.map_eq_nil_iff.1 hn)

theorem edgeListing_ne_nil {edges : List (Edge Node)} (h : ∀ e ∈ edges, e.child.listing ≠ [])
    (hne : edges ≠ []) : edgeListing edges ≠ [] := by
  obtain ⟨e, es, rfl⟩ := List.exists_cons_of_ne_nil hne
  rw [edgeListing_cons]
  exact List.append_ne_nil_of_left_ne_nil (under_ne_nil _ (h e List.mem_cons_self)) _

/-- Nothing is kept for nothing: below a node worth having there is a leaf. -/
theorem Regular.listing_ne_nil {n : Node} (h : n.Regular) (hn : n.Needed) : n.listing ≠ [] := by
  induction h with
  | @intro n _ _ _ _ _ hneed _ ih =>
    rw [listing_eq]
    rcases hn with hleaf | htwo
    · obtain ⟨link, hl⟩ := Option.isSome_iff_exists.1 hleaf
      rw [hl]
      simp
    · -- without a leaf of its own there are two edges, and behind each of them a leaf
      refine List.append_ne_nil_of_right_ne_nil _ (edgeListing_ne_nil (fun e he => ih e he (hneed e he)) ?_)
      intro hnil
      simp [hnil] at htwo

theorem RegularEdge.listing_ne_nil {e : Edge Node} (h : RegularEdge e) : e.child.listing ≠ [] :=
  h.regular.listing_ne_nil h.needed

/-- A link held for the first or the last key of a listing. -/
theorem head?_under {α : Type} (segment : Bytes) (l : List (Bytes × α)) :
    (under segment l).head?.map Prod.snd = l.head?.map Prod.snd := by
  cases l <;> rfl

theorem getLast?_under {α : Type} (segment : Bytes) (l : List (Bytes × α)) :
    (under segment l).getLast?.map Prod.snd = l.getLast?.map Prod.snd := by
  unfold under
  rw [List.getLast?_map, Option.map_map]
  rfl

/-- The first and last link of a listing, when the node is asked for them. -/
def Bounded (n : Node) : Prop :=
  n.listing ≠ [] ∧ n.listing.head?.map Prod.snd = some n.least ∧
    n.listing.getLast?.map Prod.snd = some n.greatest

theorem head?_edgeListing {edges : List (Edge Node)} (h : ∀ e ∈ edges, e.child.Bounded) :
    (edgeListing edges).head?.map Prod.snd = edges.head?.map (·.child.least) := by
  cases edges with
  | nil => rfl
  | cons e es =>
      obtain ⟨hne, hhead, -⟩ := h e List.mem_cons_self
      have hu := under_ne_nil e.child.segment hne
      rw [edgeListing_cons, List.head?_append_of_ne_nil _ hu, head?_under, hhead]
      rfl

theorem getLast?_edgeListing {edges : List (Edge Node)} (h : ∀ e ∈ edges, e.child.Bounded) :
    (edgeListing edges).getLast?.map Prod.snd = edges.getLast?.map (·.child.greatest) := by
  rcases List.eq_nil_or_concat' edges with rfl | ⟨es, e, rfl⟩
  · rfl
  · obtain ⟨hne, -, hlast⟩ := h e (by simp)
    have hu := under_ne_nil e.child.segment hne
    rw [edgeListing_append, edgeListing_cons, edgeListing_nil, List.append_nil,
      List.getLast?_append_of_ne_nil _ hu, getLast?_under, hlast]
    simp

theorem bounded_of_edges {n : Node} (hleast : n.least = leastOf n.leaf n.edges)
    (hgreatest : n.greatest = greatestOf n.leaf n.edges) (hedge : ∀ e ∈ n.edges, e.child.Bounded)
    (hne : n.listing ≠ []) : n.Bounded := by
  refine ⟨hne, ?_, ?_⟩
  · rw [hleast, listing_eq, List.head?_append, Option.map_or, head?_edgeListing hedge]
    unfold leastOf
    cases hl : n.leaf with
    | some link => rfl
    | none =>
        cases he : n.edges with
        | nil => rw [listing_eq, hl, he] at hne; exact absurd rfl hne
        | cons e es => rfl
  · rw [hgreatest, listing_eq, List.getLast?_append, Option.map_or, getLast?_edgeListing hedge]
    unfold greatestOf
    rcases List.eq_nil_or_concat' n.edges with he | ⟨es, e, he⟩
    · rw [he]
      cases hl : n.leaf with
      | some link => rfl
      | none => rw [listing_eq, hl, he] at hne; exact absurd rfl hne
    · rw [he]
      simp

/-- **A regular node remembers the first and last link of its listing.** -/
theorem Regular.bounded {n : Node} (h : n.Regular) (hne : n.listing ≠ []) : n.Bounded := by
  induction h with
  | @intro n _ _ hleast hgreatest _ hneed hbelow ih =>
    refine bounded_of_edges hleast hgreatest (fun e he => ih e he ?_) hne
    exact (hbelow e he).listing_ne_nil (hneed e he)

theorem RegularEdge.bounded {e : Edge Node} (h : RegularEdge e) : e.child.Bounded :=
  h.regular.bounded h.listing_ne_nil

/-- A regular node below which there is no leaf has no edges either. -/
theorem Regular.eq_nil {n : Node} (h : n.Regular) (hnil : n.listing = []) : n.leaf = none ∧ n.edges = [] := by
  rw [listing_eq, List.append_eq_nil_iff] at hnil
  constructor
  · cases hl : n.leaf with
    | none => rfl
    | some link => simp [hl] at hnil
  · -- an edge would have something behind it
    by_contra hedges
    exact edgeListing_ne_nil (fun e he => (h.edge he).listing_ne_nil) hedges hnil.2

/-- The same for any regular node, one that holds nothing included. -/
theorem Regular.least_eq_head {n : Node} (h : n.Regular) : n.least = (n.listing.head?.map Prod.snd).join := by
  by_cases hne : n.listing = []
  · obtain ⟨hleaf, hedges⟩ := h.eq_nil hne
    rw [hne, h.least_eq, hleaf, hedges]
    rfl
  · rw [(h.bounded hne).2.1]
    rfl

theorem Regular.greatest_eq_last {n : Node} (h : n.Regular) :
    n.greatest = (n.listing.getLast?.map Prod.snd).join := by
  by_cases hne : n.listing = []
  · obtain ⟨hleaf, hedges⟩ := h.eq_nil hne
    rw [hne, h.greatest_eq, hleaf, hedges]
    rfl
  · rw [(h.bounded hne).2.2]
    rfl

/-- In a regular node every leaf leads somewhere. -/
theorem Regular.leads_all {n : Node} (h : n.Regular) : ∀ x ∈ n.listing, x.2.isSome := by
  induction h with
  | @intro n _ hleads _ _ _ _ _ ih =>
    intro x hx
    rw [listing_eq, List.mem_append] at hx
    rcases hx with hx | hx
    · cases hl : n.leaf with
      | none => simp [hl] at hx
      | some link =>
          rw [hl, ownListing_some, List.mem_singleton] at hx
          subst hx
          exact Option.isSome_iff_ne_none.2 fun hnone => hleads (hl.trans (congrArg some hnone))
    · obtain ⟨e, he, y, hy, rfl⟩ := mem_edgeListing.1 hx
      exact ih e he y hy

end OrderedStore.Node
