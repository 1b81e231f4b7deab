import Mathlib.Tactic
import OrderedStore.Proofs.Edit
import OrderedStore.Proofs.Trie.Search
import OrderedStore.Trie.Path

/-!
# Putting a leaf in

A leaf is put in at one of three places: at a node that is there already, on a new edge, or at a node that
splits a segment in two. In each of them the path above is rebuilt around one edge, the node stays regular,
and its listing gets the new key in its place and is otherwise the same.
-/

namespace OrderedStore

namespace Bytes

/-- What two strings have in common ends where they part. -/
theorem head_drop_agreement {s t : Bytes} {b c : UInt8} {bs cs : Bytes} (hs : s.drop (agreement s t) = b :: bs)
    (ht : t.drop (agreement s t) = c :: cs) : b ≠ c := by
  fun_induction agreement s t with
  | case1 s b' t ih => exact ih hs ht
  | case2 a s b' t hne =>
      rw [List.drop_zero, List.cons.injEq] at hs ht
      exact hs.1 ▸ ht.1 ▸ hne
  | case3 s t hnil =>
      rw [List.drop_zero] at hs ht
      exact absurd ht (hnil b bs c cs hs)

/-- A key that leaves a segment after its first byte parts from it within the segment. -/
theorem part_segment {segment key : Bytes} {b : UInt8} (hs : segment.head? = some b) (hk : key.head? = some b)
    (hout : after? segment key = none) :
    ∃ shared c cs, key.take (agreement segment key) = b :: shared ∧
      segment.drop (agreement segment key) = c :: cs ∧
      segment = key.take (agreement segment key) ++ c :: cs := by
  obtain ⟨s, rfl⟩ := List.head?_eq_some_iff.1 hs
  obtain ⟨t, rfl⟩ := List.head?_eq_some_iff.1 hk
  -- if all of the segment were shared, the key would go on after it
  have hdrop : (b :: s).drop (agreement (b :: s) (b :: t)) ≠ [] := by
    intro hnil
    have hparts := List.take_append_drop (agreement (b :: s) (b :: t)) (b :: s)
    rw [hnil, List.append_nil, take_agreement] at hparts
    have hkey := List.take_append_drop (agreement (b :: s) (b :: t)) (b :: t)
    rw [hparts] at hkey
    rw [after?_eq_some_iff.2 hkey.symm] at hout
    simp at hout
  obtain ⟨c, cs, hc⟩ := List.exists_cons_of_ne_nil hdrop
  refine ⟨t.take (agreement s t), c, cs, ?_, hc, ?_⟩
  · rw [agreement, if_pos rfl, List.take_succ_cons]
  · rw [← hc, ← take_agreement, List.take_append_drop]

end Bytes

namespace Node

open Edit

variable {n : Node} {b : UInt8} {bs : Bytes} {l r : List (Edge Node)} {e : Edge Node}

theorem edgeTo_eq {child : Node} {s : Bytes} (h : child.segment = b :: s) : edgeTo child = .ok ⟨b, child⟩ := by
  unfold edgeTo
  rw [h]

theorem insertIdx_middle {α : Type} (l r : List α) (a : α) : (l ++ r).insertIdx l.length a = l ++ a :: r := by
  induction l with
  | nil => rfl
  | cons x l ih => rw [List.cons_append, List.length_cons, List.insertIdx_succ_cons, ih, List.cons_append]

theorem Miss.insertEdge (h : n.Miss e.label l r) :
    n.insertEdge e = .ok { n with edges := l ++ e :: r } := by
  unfold Node.insertEdge
  rw [h.spot]
  dsimp only
  rw [h.edges, insertIdx_middle]

/-- Edges of a node that lie to the left and to the right of a label. -/
structure Around (n : Node) (b : UInt8) (l r : List (Edge Node)) : Prop where
  sub : (l ++ r).Sublist n.edges
  left : ∀ x ∈ l, x.label < b
  right : ∀ x ∈ r, b < x.label

theorem Hit.around (h : n.Hit b l e r) : n.Around b l r where
  sub := by
    rw [h.edges]
    exact List.Sublist.append_left (List.sublist_cons_self e r) l
  left := h.left
  right := h.right

theorem Miss.around (h : n.Miss b l r) : n.Around b l r where
  sub := by rw [h.edges]
  left := h.left
  right := h.right

/-- A regular node with the same segment and another listing. -/
structure Rewrites (n n' : Node) (l : List (Bytes × Link)) : Prop where
  regular : n'.Regular
  segment : n'.segment = n.segment
  listing : n'.listing = l

/-- Rebuilding a regular node around another edge. -/
theorem Around.rewrites_with (h : n.Around b l r) (hn : n.Regular) (he : RegularEdge e) (hlabel : e.label = b)
    (stamp : Stamp) :
    n.Rewrites ({ n with stamp, edges := l ++ e :: r } : Node).refresh
      ((ownListing n.leaf ++ edgeListing l) ++ under e.child.segment e.child.listing ++ edgeListing r) where
  regular := by
    refine Regular.refresh ?_ hn.leads ?_
    · exact Edge.Ascending.insert (List.Pairwise.sublist h.sub hn.ascending) (hlabel ▸ h.left) (hlabel ▸ h.right)
    · intro x hx
      rcases List.mem_append.1 hx with hx | hx
      · exact hn.edge (h.sub.subset (List.mem_append_left r hx))
      · rcases List.mem_cons.1 hx with rfl | hx
        · exact he
        · exact hn.edge (h.sub.subset (List.mem_append_right l hx))
  segment := rfl
  listing := by
    rw [listing_refresh, listing_eq, edgeListing_append, edgeListing_cons]
    simp only [List.append_assoc]

/-- Rebuilding a regular node without the edge. -/
theorem Around.rewrites_without (h : n.Around b l r) (hn : n.Regular) (stamp : Stamp) :
    n.Rewrites ({ n with stamp, edges := l ++ r } : Node).refresh
      ((ownListing n.leaf ++ edgeListing l) ++ edgeListing r) where
  regular := Regular.refresh (List.Pairwise.sublist h.sub hn.ascending) hn.leads
    fun _ hx => hn.edge (h.sub.subset hx)
  segment := rfl
  listing := by
    rw [listing_refresh, listing_eq, edgeListing_append]
    simp only [List.append_assoc]

/-- A node that was worth having is so still with as many edges. -/
theorem needed_with {stamp : Stamp} {es : List (Edge Node)} (hn : n.Needed) (hlen : n.edges.length ≤ es.length) :
    ({ n with stamp, edges := es } : Node).refresh.Needed := by
  rcases hn with hleaf | htwo
  · exact Or.inl hleaf
  · exact Or.inr (Nat.le_trans htwo hlen)

theorem set_middle {α : Type} (l r : List α) (a x : α) : (l ++ a :: r).set l.length x = l ++ x :: r := by
  rw [List.set_append_right l.length x (Nat.le_refl _), Nat.sub_self, List.set_cons_zero]

theorem Hit.set (h : n.Hit b l e r) (x : Edge Node) : n.edges.set l.length x = l ++ x :: r := by
  rw [h.edges, set_middle]

theorem Hit.length (h : n.Hit b l e r) (x : Edge Node) : (l ++ x :: r).length = n.edges.length := by
  rw [← h.set x, List.length_set]

theorem ofLeaf_regular (stamp : Stamp) (segment : Bytes) (id : LeafId) : (ofLeaf stamp segment id).Regular :=
  .intro List.Pairwise.nil (by simp [ofLeaf]) rfl rfl (by simp [ofLeaf]) (by simp [ofLeaf]) (by simp [ofLeaf])

theorem ofLeaf_edge (stamp : Stamp) (b : UInt8) (bs : Bytes) (id : LeafId) :
    RegularEdge ⟨b, ofLeaf stamp (b :: bs) id⟩ :=
  ⟨rfl, Or.inl rfl, ofLeaf_regular stamp _ id⟩

theorem ofLeaf_under (stamp : Stamp) (segment : Bytes) (id : LeafId) :
    under (ofLeaf stamp segment id).segment (ofLeaf stamp segment id).listing = [(segment, some id)] := by
  rw [listing_eq]
  show [(segment ++ [], some id)] = _
  rw [List.append_nil]

/-! ## Splitting a segment -/

theorem bare_miss (stamp : Stamp) (segment : Bytes) (b : UInt8) : (bare stamp segment).Miss b [] [] where
  edges := rfl
  left := by simp
  right := by simp
  spot := by simp [bare, Edge.locate, Edge.narrow]

/-- Where another label belongs beside a single edge. -/
theorem miss_beside {x : Edge Node} (hx : n.edges = [x]) (hne : b ≠ x.label) :
    (b < x.label ∧ n.Miss b [] [x]) ∨ (x.label < b ∧ n.Miss b [x] []) := by
  have hasc : Edge.Ascending n.edges := by
    rw [hx]
    exact List.pairwise_singleton _ _
  rcases Edge.locate_cases hasc b with ⟨l, e, r, h, hlabel, -, -, -⟩ | ⟨l, r, h, hl, hr, hspot⟩
  · have he : e ∈ [x] := by
      rw [← hx, h]
      simp
    rw [List.mem_singleton.1 he] at hlabel
    exact absurd hlabel.symm hne
  · rcases List.append_eq_singleton_iff.1 (h.symm.trans hx) with ⟨rfl, rfl⟩ | ⟨rfl, rfl⟩
    · exact Or.inl ⟨hr x List.mem_cons_self, h, hl, hr, hspot⟩
    · exact Or.inr ⟨hl x List.mem_cons_self, h, hl, hr, hspot⟩

/-- A node in the middle of a segment: its path ends in `middle`, and it holds what the child held, with one
more key right before or right after that. -/
structure Fork (n : Node) (middle key : Bytes) (child : Node) (id : LeafId) : Prop where
  segment : n.segment = middle
  regular : n.refresh.Regular
  needed : n.Needed
  holds : (key < child.segment ∧ under middle n.listing = (key, some id) :: under child.segment child.listing) ∨
    (child.segment < key ∧ under middle n.listing = under child.segment child.listing ++ [(key, some id)])

variable {middle key : Bytes} {child : Node} {id : LeafId} {x y : Edge Node}

/-- The key ends in the middle. -/
theorem Fork.of_leaf (hsegment : n.segment = key) (hleaf : n.leaf = some (some id)) (hedges : n.edges = [x])
    (hx : RegularEdge x) (hlt : key < child.segment)
    (hold : under key (under x.child.segment x.child.listing) = under child.segment child.listing) :
    n.Fork key key child id where
  segment := hsegment
  regular := by
    refine Regular.refresh ?_ (by simp [hleaf]) fun e he => ?_
    · rw [hedges]
      exact List.pairwise_singleton _ _
    · rw [hedges, List.mem_singleton] at he
      exact he ▸ hx
  needed := Or.inl (by rw [hleaf]; rfl)
  holds := by
    refine Or.inl ⟨hlt, ?_⟩
    rw [listing_eq, hleaf, hedges, ownListing_some, edgeListing_cons, edgeListing_nil, List.append_nil,
      under_append, hold, under_cons, under_nil, List.append_nil, List.singleton_append]

/-- The key goes on beside the child. -/
theorem Fork.of_edges (hsegment : n.segment = middle) (hleaf : n.leaf = none) (hx : RegularEdge x)
    (hy : RegularEdge y)
    (hold : under middle (under x.child.segment x.child.listing) = under child.segment child.listing)
    (hnew : under middle (under y.child.segment y.child.listing) = [(key, some id)])
    (hedges : (y.label < x.label ∧ key < child.segment ∧ n.edges = [y, x]) ∨
      (x.label < y.label ∧ child.segment < key ∧ n.edges = [x, y])) :
    n.Fork middle key child id where
  segment := hsegment
  regular := by
    refine Regular.refresh ?_ (by simp [hleaf]) fun e he => ?_
    · rcases hedges with ⟨hlt, -, h⟩ | ⟨hlt, -, h⟩
      · rw [h]
        exact List.pairwise_pair.2 hlt
      · rw [h]
        exact List.pairwise_pair.2 hlt
    · -- whichever of the two comes first, these are the edges
      have hmem : e = x ∨ e = y := by
        rcases hedges with ⟨-, -, h⟩ | ⟨-, -, h⟩
        · simpa [h, or_comm] using he
        · simpa [h] using he
      rcases hmem with rfl | rfl
      · exact hx
      · exact hy
  needed := by
    rcases hedges with ⟨-, -, h⟩ | ⟨-, -, h⟩
    · exact Or.inr (by rw [h]; exact Nat.le_refl 2)
    · exact Or.inr (by rw [h]; exact Nat.le_refl 2)
  holds := by
    rcases hedges with ⟨-, hlt, h⟩ | ⟨-, hlt, h⟩
    · refine Or.inl ⟨hlt, ?_⟩
      rw [listing_eq, hleaf, h, ownListing_none, List.nil_append, edgeListing_cons, edgeListing_cons,
        edgeListing_nil, List.append_nil, under_append, hold, hnew, List.singleton_append]
    · refine Or.inr ⟨hlt, ?_⟩
      rw [listing_eq, hleaf, h, ownListing_none, List.nil_append, edgeListing_cons, edgeListing_cons,
        edgeListing_nil, List.append_nil, under_append, hold, hnew]

/-- An edge takes the place of the edge to a child, with one more key. -/
structure Grown (e : Edge Node) (b : UInt8) (key : Bytes) (child : Node) (id : LeafId) : Prop where
  edge : RegularEdge e
  label : e.label = b
  holds : (key < child.segment ∧
      under e.child.segment e.child.listing = (key, some id) :: under child.segment child.listing) ∨
    (child.segment < key ∧
      under e.child.segment e.child.listing = under child.segment child.listing ++ [(key, some id)])

/-- The ends of the node in the middle are computed and the edge to it is made. -/
theorem Fork.yields {shared : Bytes} (h : n.Fork (b :: shared) key child id) :
    Yields (liftM (edgeTo n.refresh)) fun e => Grown e b key child id := by
  refine Yields.lift (edgeTo_eq h.segment) ⟨⟨?_, h.needed, h.regular⟩, rfl, ?_⟩
  · dsimp only
    rw [segment_refresh, h.segment, List.head?_cons]
  · dsimp only
    rw [segment_refresh, listing_refresh, h.segment]
    exact h.holds

/-- What is left of a child below the middle of its segment. -/
theorem tail_edge {c : UInt8} {cs : Bytes} {k : Nat} (hc : RegularEdge ⟨b, child⟩)
    (hdrop : child.segment.drop k = c :: cs) (hseg : child.segment = middle ++ c :: cs) {stamp : Stamp}
    {tail : Node} (htail : { child with stamp, segment := child.segment.drop k } = tail) :
    tail.segment = c :: cs ∧ RegularEdge ⟨c, tail⟩ ∧
      under middle (under tail.segment tail.listing) = under child.segment child.listing := by
  subst htail
  refine ⟨hdrop, ⟨?_, hc.needed, hc.regular.relocate stamp _⟩, ?_⟩
  · dsimp only
    rw [hdrop, List.head?_cons]
  · rw [listing_relocate, under_under]
    dsimp only
    rw [hdrop, ← hseg]

/-- A key that goes on where a child does, but with another byte, gets an edge beside it. -/
theorem Fork.beside_yields {shared : Bytes} (hsegment : n.segment = b :: shared) (hleaf : n.leaf = none)
    (hedges : n.edges = [x]) (hx : RegularEdge x) (hy : RegularEdge y) (hne : y.label ≠ x.label)
    (hold : under (b :: shared) (under x.child.segment x.child.listing) = under child.segment child.listing)
    (hnew : under (b :: shared) (under y.child.segment y.child.listing) = [(key, some id)])
    (hlt : y.label < x.label → key < child.segment) (hgt : x.label < y.label → child.segment < key) :
    (do
      let fork ← liftM (n.insertEdge y)
      liftM (edgeTo (refresh fork)) : Edit (Edge Node)).Yields fun e => Grown e b key child id := by
  -- the order of the labels is the order of the key and the segment
  rcases miss_beside hedges hne with ⟨hbefore, hmiss⟩ | ⟨hbehind, hmiss⟩
  · refine Yields.bind_lift hmiss.insertEdge ?_
    exact Fork.yields (Fork.of_edges hsegment hleaf hx hy hold hnew (Or.inl ⟨hbefore, hlt hbefore, rfl⟩))
  · refine Yields.bind_lift hmiss.insertEdge ?_
    exact Fork.yields (Fork.of_edges hsegment hleaf hx hy hold hnew (Or.inr ⟨hbehind, hgt hbehind, rfl⟩))

/-- **Splitting the segment of a child** where a key parts from it. -/
theorem split_yields (hc : RegularEdge ⟨b, child⟩) (hk : key.head? = some b)
    (hout : Bytes.after? child.segment key = none) :
    (child.split key id).Yields fun e => Grown e b key child id := by
  obtain ⟨shared, c, cs, hshared, hdrop, hseg⟩ := Bytes.part_segment hc.labelled hk hout
  unfold split
  dsimp only
  generalize hagree : Bytes.agreement child.segment key = k at hshared hdrop hseg ⊢
  have hparts := List.take_append_drop k key
  rw [hshared] at hseg hparts ⊢
  refine Yields.bind_fresh fun s₁ => ?_
  generalize htail : ({ child with stamp := s₁, segment := child.segment.drop k } : Node) = tail
  -- what is left of the child holds below the middle what the child held
  obtain ⟨hsegment, hx, hold⟩ := tail_edge hc hdrop hseg htail
  refine Yields.bind_fresh fun s₂ => ?_
  refine Yields.bind_lift (edgeTo_eq hsegment) ?_
  refine Yields.bind_lift (bare_miss s₂ (b :: shared) c).insertEdge ?_
  split
  · rename_i hlen
    -- nothing is left of the key, so the node in the middle takes the leaf
    have hkey : key = b :: shared := by
      rw [← hshared, hlen, List.take_length]
    have hlt : key < child.segment := by
      rw [hseg, ← hkey]
      exact Bytes.lt_of_append key (c :: cs) (by simp)
    refine Yields.bind_pure ?_
    rw [← hkey] at hold
    have hfork : Fork { bare s₂ (b :: shared) with leaf := some (some id), edges := [⟨c, tail⟩] } key key child id :=
      Fork.of_leaf hkey.symm rfl rfl hx hlt hold
    rw [hkey] at hfork
    exact hkey ▸ hfork.yields
  · rename_i hlen
    -- the key and the segment go on with bytes that differ, and these decide the order
    obtain ⟨d, ds, hd⟩ : ∃ d ds, key.drop k = d :: ds := by
      refine List.exists_cons_of_ne_nil fun hnil => hlen ?_
      have hle := Bytes.agreement_le_right child.segment key
      have := List.drop_eq_nil_iff.1 hnil
      omega
    have hne : d ≠ c := by
      subst hagree
      exact Ne.symm (Bytes.head_drop_agreement hdrop hd)
    rw [hd] at hparts ⊢
    refine Yields.bind_fresh fun s₃ => ?_
    refine Yields.bind_lift (edgeTo_eq (by rfl)) ?_
    refine Fork.beside_yields (x := ⟨c, tail⟩) rfl rfl rfl hx (ofLeaf_edge s₃ d ds id) hne hold ?_ ?_ ?_
    · dsimp only
      rw [ofLeaf_under s₃ (d :: ds) id, under_cons, under_nil, hparts]
    · intro hlt
      rw [hseg, ← hparts, Bytes.append_lt_append_iff, List.cons_lt_cons_iff]
      exact Or.inl hlt
    · intro hlt
      rw [hseg, ← hparts, Bytes.append_lt_append_iff, List.cons_lt_cons_iff]
      exact Or.inl hlt

/-! ## The whole path -/

variable {xs ys : List (Bytes × Link)}

/-- A key that is put in behind an edge comes into the listing of the node with the segment before it. -/
theorem Hit.insert_behind (h : n.Hit b l e r) (hn : n.Regular) {rest : Bytes}
    (hrest : b :: bs = e.child.segment ++ rest) (hchild : e.child.Rewrites child (xs ++ (rest, some id) :: ys))
    (hneed : e.child.Needed → child.Needed) (s : Stamp) :
    n.Rewrites ({ n with stamp := s, edges := l ++ { e with child } :: r } : Node).refresh
      ((ownListing n.leaf ++ edgeListing l ++ under e.child.segment xs) ++
        (b :: bs, some id) :: (under e.child.segment ys ++ edgeListing r)) := by
  have he := hn.edge h.mem
  have hedge : RegularEdge { e with child } :=
    ⟨by dsimp only; rw [hchild.segment, he.labelled], hneed he.needed, hchild.regular⟩
  have hnode := h.around.rewrites_with hn hedge h.label s
  dsimp only at hnode
  rw [hchild.segment, hchild.listing, under_append, under_cons, ← hrest] at hnode
  simpa only [List.append_assoc, List.cons_append] using hnode

/-- A key that parts from the segment behind an edge comes right before or right after what hangs there. -/
theorem Hit.insert_split (h : n.Hit b l e r) (hn : n.Regular) (hs : SplitsAt (b :: bs) n.listing xs [] ys)
    (hout : Bytes.after? e.child.segment (b :: bs) = none) (hx : Grown x b (b :: bs) e.child id) (s : Stamp) :
    n.Rewrites ({ n with stamp := s, edges := l ++ x :: r } : Node).refresh (xs ++ (b :: bs, some id) :: ys) := by
  have hnode := h.around.rewrites_with hn hx.edge hx.label s
  rcases hx.holds with ⟨hlt, hlist⟩ | ⟨hgt, hlist⟩
  · obtain ⟨rfl, -, rfl⟩ := hs.unique (h.splitsAt_before hn hlt)
    rw [hlist] at hnode
    simpa only [List.append_assoc, List.cons_append] using hnode
  · obtain ⟨rfl, -, rfl⟩ := hs.unique (h.splitsAt_after hn hgt hout)
    rw [hlist] at hnode
    simpa only [List.append_assoc, List.cons_append, List.nil_append] using hnode

/-- A key that falls into a gap between the edges gets an edge of its own. -/
theorem Miss.insert_leaf (h : n.Miss b l r) (hn : n.Regular) (hs : SplitsAt (b :: bs) n.listing xs [] ys)
    (s s' : Stamp) :
    n.Rewrites ({ n with stamp := s, edges := l ++ ⟨b, ofLeaf s' (b :: bs) id⟩ :: r } : Node).refresh
      (xs ++ (b :: bs, some id) :: ys) := by
  obtain ⟨rfl, -, rfl⟩ := hs.unique (h.splitsAt hn bs)
  have hnode := h.around.rewrites_with hn (ofLeaf_edge s' b bs id) rfl s
  dsimp only at hnode
  rw [ofLeaf_under] at hnode
  simpa only [List.append_assoc, List.cons_append, List.nil_append] using hnode

/-- **Putting a leaf in** puts its key into the listing, at its place, and changes nothing else. -/
theorem Regular.insert_yields {n : Node} (hn : n.Regular) {key : Bytes} {id : LeafId}
    {xs ys : List (Bytes × Link)} (hs : SplitsAt key n.listing xs [] ys) :
    (n.insert key id).Yields fun n' =>
      n.Rewrites n' (xs ++ (key, some id) :: ys) ∧ (n.Needed → n'.Needed) := by
  induction hn using Regular.induct generalizing key xs ys with
  | step n hn ih =>
      rw [Node.insert]
      refine Yields.bind_fresh fun s => ?_
      cases key with
      | nil =>
          -- the node itself takes the leaf, and its own key comes first in the listing
          obtain ⟨rfl, hown, rfl⟩ := hs.unique hn.splitsAt_nil
          refine Yields.pure ⟨⟨?_, rfl, ?_⟩, fun _ => Or.inl rfl⟩
          · exact Regular.refresh hn.ascending (by simp) fun e he => hn.edge he
          · rw [listing_refresh, listing_eq]
            rfl
      | cons b bs =>
          rcases hn.hit_or_miss b with ⟨l, e, r, h⟩ | ⟨l, r, h⟩
          · dsimp only
            rw [h.spot]
            dsimp only
            split
            · rename_i hnone
              rw [h.getElem?] at hnone
              simp at hnone
            · rename_i e' he'
              -- the edge the bisection found is the one at its place
              obtain rfl := Option.some.inj (h.getElem?.symm.trans he')
              have he := hn.edge h.mem
              cases hout : Bytes.after? e.child.segment (b :: bs) with
              | some rest =>
                  have hrest := Bytes.after?_eq_some_iff.1 hout
                  -- the key has a place below the child because it has one here
                  obtain ⟨xs', ms', ys', hs', -⟩ := he.regular.sorted.splitsAt rest
                  obtain ⟨rfl, hms, rfl⟩ := hs.unique (h.splitsAt hn hrest hs')
                  obtain rfl := List.map_eq_nil_iff.1 hms.symm
                  refine Yields.bind (ih e h.mem hs') ?_
                  rintro child ⟨hchild, hneed⟩
                  refine Yields.bind_pure ?_
                  rw [h.set]
                  exact Yields.pure ⟨h.insert_behind hn hrest hchild hneed s,
                    fun hn' => needed_with hn' (Nat.le_of_eq (h.length _).symm)⟩
              | none =>
                  -- the key parts from the segment, so the segment is split there
                  have hlabelled : RegularEdge ⟨b, e.child⟩ :=
                    ⟨h.label ▸ he.labelled, he.needed, he.regular⟩
                  refine Yields.bind (split_yields hlabelled rfl hout) ?_
                  rintro x hx
                  rw [h.set]
                  exact Yields.pure ⟨h.insert_split hn hs hout hx s,
                    fun hn' => needed_with hn' (Nat.le_of_eq (h.length _).symm)⟩
          · dsimp only
            rw [h.spot]
            dsimp only
            refine Yields.bind_fresh fun s' => ?_
            refine Yields.bind_lift (edgeTo_eq (by rfl)) ?_
            rw [h.edges, insertIdx_middle]
            refine Yields.pure ⟨h.insert_leaf hn hs s s', fun hn' => needed_with hn' ?_⟩
            rw [h.edges, List.length_append, List.length_append, List.length_cons]
            omega

end Node

end OrderedStore
