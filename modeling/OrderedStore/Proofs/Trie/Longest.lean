import Mathlib.Tactic
import OrderedStore.Proofs.Trie.Search

/-!
# The longest stored beginning

On its way down a search passes the leaves whose keys are beginnings of the key it looks for, shorter ones
first. A listing has them in the same order, so the deepest leaf passed is the last of them.
-/

namespace OrderedStore.Node

/-- The part of a listing whose keys are beginnings of the given one. -/
def beginnings (key : Bytes) (l : List (Bytes × Link)) : List (Bytes × Link) := l.filter fun x => x.1 <+: key

variable {n : Node} {b : UInt8} {bs : Bytes} {l r : List (Edge Node)} {e : Edge Node}

theorem beginnings_append (key : Bytes) (xs ys : List (Bytes × Link)) :
    beginnings key (xs ++ ys) = beginnings key xs ++ beginnings key ys := List.filter_append _ _

theorem beginnings_ownListing (key : Bytes) (leaf : Option Link) :
    beginnings key (ownListing leaf) = ownListing leaf := by
  cases leaf <;> simp [beginnings]

/-- Behind other labels nothing is a beginning of the key. -/
theorem beginnings_edgeListing {edges : List (Edge Node)} (he : ∀ x ∈ edges, RegularEdge x)
    (hne : ∀ x ∈ edges, x.label ≠ b) : beginnings (b :: bs) (edgeListing edges) = [] := by
  refine List.filter_eq_nil_iff.2 fun x hx => ?_
  obtain ⟨e, hmem, y, -, rfl⟩ := mem_edgeListing.1 hx
  obtain ⟨s, hs⟩ := (he e hmem).segment_eq
  rw [hs, List.cons_append, decide_eq_true_eq, List.cons_prefix_cons]
  exact fun h => hne e hmem h.1

theorem beginnings_edgeListing_nil {edges : List (Edge Node)} (he : ∀ x ∈ edges, RegularEdge x) :
    beginnings [] (edgeListing edges) = [] := by
  refine List.filter_eq_nil_iff.2 fun x hx => ?_
  obtain ⟨e, hmem, y, -, rfl⟩ := mem_edgeListing.1 hx
  obtain ⟨s, hs⟩ := (he e hmem).segment_eq
  rw [hs, decide_eq_true_eq]
  simp

/-- Behind a segment that the key goes through, what is left of the key decides. -/
theorem beginnings_under {segment rest key : Bytes} (hkey : key = segment ++ rest) (l : List (Bytes × Link)) :
    beginnings key (under segment l) = under segment (beginnings rest l) := by
  unfold beginnings under
  rw [hkey, List.filter_map]
  refine congrArg (List.map _) (List.filter_congr fun x _ => ?_)
  simp

/-- Behind a segment that the key leaves, nothing is a beginning of it. -/
theorem beginnings_under_none {segment key : Bytes} (hout : Bytes.after? segment key = none)
    (l : List (Bytes × Link)) : beginnings key (under segment l) = [] := by
  refine List.filter_eq_nil_iff.2 fun x hx => ?_
  obtain ⟨y, -, rfl⟩ := mem_under.1 hx
  rw [decide_eq_true_eq]
  intro hstart
  obtain ⟨t, ht⟩ := (List.prefix_append segment y.1).trans hstart
  rw [← ht, Bytes.after?_append] at hout
  cases hout

theorem Miss.beginnings_eq (h : n.Miss b l r) (hn : n.Regular) :
    beginnings (b :: bs) n.listing = ownListing n.leaf := by
  have hl : beginnings (b :: bs) (edgeListing l) = [] :=
    beginnings_edgeListing (fun x hx => hn.edge (h.mem_left x hx)) fun x hx => UInt8.ne_of_lt (h.left x hx)
  have hr : beginnings (b :: bs) (edgeListing r) = [] :=
    beginnings_edgeListing (fun x hx => hn.edge (h.mem_right x hx)) fun x hx => (UInt8.ne_of_lt (h.right x hx)).symm
  rw [listing_eq, h.edges, edgeListing_append, beginnings_append, beginnings_append, beginnings_ownListing, hl, hr,
    List.append_nil, List.append_nil]

theorem Hit.beginnings_eq (h : n.Hit b l e r) (hn : n.Regular) :
    beginnings (b :: bs) n.listing =
      ownListing n.leaf ++ beginnings (b :: bs) (under e.child.segment e.child.listing) := by
  have hl : beginnings (b :: bs) (edgeListing l) = [] :=
    beginnings_edgeListing (fun x hx => hn.edge (h.mem_left x hx)) fun x hx => UInt8.ne_of_lt (h.left x hx)
  have hr : beginnings (b :: bs) (edgeListing r) = [] :=
    beginnings_edgeListing (fun x hx => hn.edge (h.mem_right x hx)) fun x hx => (UInt8.ne_of_lt (h.right x hx)).symm
  rw [h.listing, beginnings_append, beginnings_append, beginnings_append, beginnings_ownListing, hl, hr,
    List.append_nil, List.append_nil]

theorem longest?_nil (seen : Option Link) : n.longest? [] seen = n.leaf.or seen := by
  rw [longest?]

theorem longest?_of_none (hc : n.child? b = none) (seen : Option Link) :
    n.longest? (b :: bs) seen = n.leaf.or seen := by
  rw [longest?]
  split
  · rfl
  · simp_all

theorem longest?_of_some {c : Node} (hc : n.child? b = some c) (seen : Option Link) :
    n.longest? (b :: bs) seen =
      match Bytes.after? c.segment (b :: bs) with
      | none => n.leaf.or seen
      | some rest => c.longest? rest (n.leaf.or seen) := by
  rw [longest?]
  split
  · simp_all
  · rename_i c' hc'
    obtain rfl := Option.some.inj (hc.symm.trans hc')
    cases Bytes.after? c.segment (b :: bs) <;> rfl

theorem getLast?_ownListing (leaf : Option Link) : (ownListing leaf).getLast?.map Prod.snd = leaf := by
  cases leaf <;> rfl

/-- **The longest stored beginning is the last one that the listing has.** -/
theorem Regular.longest?_eq {n : Node} (hn : n.Regular) (key : Bytes) (seen : Option Link) :
    n.longest? key seen = ((beginnings key n.listing).getLast?.map Prod.snd).or seen := by
  induction n, key using find?.induct generalizing seen with
  | case1 n =>
      rw [longest?_nil, listing_eq, beginnings_append, beginnings_ownListing,
        beginnings_edgeListing_nil fun x hx => hn.edge hx, List.append_nil, getLast?_ownListing]
  | case2 n b bs hc =>
      obtain ⟨l, r, h⟩ := hn.miss_of_child? hc
      rw [longest?_of_none hc, h.beginnings_eq hn, getLast?_ownListing]
  | case3 n b bs c hc hout =>
      obtain ⟨l, e, r, h, rfl, he⟩ := hn.hit_of_child? hc
      rw [longest?_of_some hc, hout, h.beginnings_eq hn, beginnings_under_none hout, List.append_nil,
        getLast?_ownListing]
  | case4 n b bs c hc rest hrest ih =>
      obtain ⟨l, e, r, h, rfl, he⟩ := hn.hit_of_child? hc
      -- what is met further down is longer than the node's own leaf
      rw [longest?_of_some hc, hrest]
      dsimp only
      rw [ih he.regular, h.beginnings_eq hn, beginnings_under (Bytes.after?_eq_some_iff.1 hrest),
        List.getLast?_append, Option.map_or, getLast?_under, getLast?_ownListing, Option.or_assoc]

end OrderedStore.Node
