import Mathlib.Tactic
import OrderedStore.Proofs.Trie.Cover
import OrderedStore.Proofs.Trie.Insert

/-!
# Taking leaves away

A removal may leave the node it ends at without a leaf and with fewer than two edges. On the way back the
edge to such a node is either dropped, when nothing is left behind it, or tied to the one node that is left.
Neither changes the listing, so a removal takes exactly the leaves it is after out of it.
-/

namespace OrderedStore.Node

open Edit

variable {n : Node} {b : UInt8} {bs : Bytes} {l r : List (Edge Node)} {e : Edge Node}

theorem eraseIdx_middle {α : Type} (l r : List α) (a : α) : (l ++ a :: r).eraseIdx l.length = l ++ r := by
  rw [List.eraseIdx_append_of_length_le (Nat.le_refl _), Nat.sub_self, List.eraseIdx_cons_zero]

theorem Hit.eraseIdx (h : n.Hit b l e r) : n.edges.eraseIdx l.length = l ++ r := by
  rw [h.edges, eraseIdx_middle]

/-- A node that is written without a change. -/
theorem Regular.rewrites_self (hn : n.Regular) (stamp : Stamp) : n.Rewrites { n with stamp } n.listing where
  regular := hn.relocate stamp n.segment
  segment := rfl
  listing := listing_congr rfl rfl

theorem Regular.rewrites_absent (hn : n.Regular) {key : Bytes} {xs ys : List (Bytes × Link)}
    (hs : SplitsAt key n.listing xs [] ys) (stamp : Stamp) : n.Rewrites { n with stamp } (xs ++ ys) := by
  have hself := hn.rewrites_self stamp
  rw [hs.parts, List.append_nil] at hself
  exact hself

/-- A key that parts from the segment behind its edge is not in the listing. -/
theorem Hit.absent (h : n.Hit b l e r) (hn : n.Regular) {xs ms ys : List (Bytes × Link)}
    (hs : SplitsAt (b :: bs) n.listing xs ms ys) (hout : Bytes.after? e.child.segment (b :: bs) = none) :
    ms = [] := by
  rcases segment_lt_or_gt hout with hlt | hgt
  · exact (hs.unique (h.splitsAt_before hn hlt)).2.1
  · exact (hs.unique (h.splitsAt_after hn hgt hout)).2.1

/-- Two nodes in a row, the first of them needless, are one node with both segments. -/
theorem merged_edge {c : Node} {only : Edge Node} (hc : c.Regular) (hs : c.segment.head? = some b)
    (honly : only ∈ c.edges) (stamp : Stamp) :
    RegularEdge ⟨b, { only.child with stamp, segment := c.segment ++ only.child.segment }⟩ where
  labelled := by
    obtain ⟨s, hs⟩ := List.head?_eq_some_iff.1 hs
    dsimp only
    rw [hs, List.cons_append, List.head?_cons]
  needed := (hc.edge honly).needed
  regular := (hc.edge honly).regular.relocate stamp _

/-- Merging a needless child with the one node behind it does not change the listing. -/
theorem Around.merged {c : Node} {only : Edge Node} (h : n.Around b l r) (hn : n.Regular) (hc : c.Regular)
    (hs : c.segment.head? = some b) (hleaf : c.leaf = none) (hedges : c.edges = [only]) (stamp s : Stamp) :
    n.Rewrites
      ({ n with
        stamp
        edges := l ++ ⟨b, { only.child with stamp := s, segment := c.segment ++ only.child.segment }⟩ :: r } :
        Node).refresh
      ((ownListing n.leaf ++ edgeListing l) ++ under c.segment c.listing ++ edgeListing r) := by
  have honly : only ∈ c.edges := by
    rw [hedges]
    exact List.mem_cons_self
  have hnode := h.rewrites_with hn (merged_edge hc hs honly s) rfl stamp
  rw [listing_relocate] at hnode
  rw [listing_eq c, hleaf, hedges, ownListing_none, List.nil_append, edgeListing_cons, edgeListing_nil,
    List.append_nil, under_under]
  exact hnode

/-- **Path compression is restored without a change to the listing.** -/
theorem Around.recompress_yields {c : Node} (h : n.Around b l r) (hn : n.Regular) (hc : c.Regular)
    (hs : c.segment.head? = some b) (stamp : Stamp) :
    (do
      let n' ← recompress { n with stamp, edges := l ++ ⟨b, c⟩ :: r } l.length
      pure n'.refresh : Edit Node).Yields fun n' =>
        n.Rewrites n' ((ownListing n.leaf ++ edgeListing l) ++ under c.segment c.listing ++ edgeListing r) := by
  have hat : (l ++ (⟨b, c⟩ : Edge Node) :: r)[l.length]? = some ⟨b, c⟩ := by
    rw [List.getElem?_append_right (Nat.le_refl _), Nat.sub_self, List.getElem?_cons_zero]
  -- a child with a leaf stays, one without edges goes, one with a single edge is merged with what hangs
  -- there, and one with more edges stays
  unfold recompress
  dsimp only
  rw [hat]
  dsimp only
  split
  · rename_i hleaf
    refine Yields.bind_pure ?_
    exact Yields.pure (h.rewrites_with hn ⟨hs, Or.inl hleaf, hc⟩ rfl stamp)
  · rename_i hsome
    have hleaf := Option.not_isSome_iff_eq_none.1 hsome
    split
    · rename_i hedges
      refine Yields.bind_pure ?_
      -- nothing is left behind the edge, and nothing is what it adds to the listing
      rw [eraseIdx_middle, listing_eq c, hleaf, hedges, ownListing_none, edgeListing_nil, List.append_nil, under_nil,
        List.append_nil]
      exact Yields.pure (h.rewrites_without hn stamp)
    · rename_i only hedges
      obtain ⟨shared, hshared⟩ := List.head?_eq_some_iff.1 hs
      -- the merged segment still starts with the label
      have hsegment : c.segment ++ only.child.segment = b :: (shared ++ only.child.segment) := by
        rw [hshared, List.cons_append]
      rw [bind_assoc]
      refine Yields.bind_fresh fun s => ?_
      rw [bind_assoc]
      refine Yields.bind_lift (edgeTo_eq (by exact hsegment)) ?_
      refine Yields.bind_pure ?_
      rw [set_middle]
      exact Yields.pure (h.merged hn hc hs hleaf hedges stamp s)
    · rename_i hnil hsingle
      -- neither no edge nor one: the child is still worth having
      have htwo : 2 ≤ c.edges.length := by
        rcases hedges : c.edges with _ | ⟨x, _ | ⟨y, es⟩⟩
        · exact absurd hedges hnil
        · exact absurd hedges (hsingle x)
        · simp
      refine Yields.bind_pure ?_
      exact Yields.pure (h.rewrites_with hn ⟨hs, Or.inr htwo, hc⟩ rfl stamp)

/-- What is taken away behind an edge is taken out of the listing of the node. -/
theorem Hit.recompress_yields (h : n.Hit b l e r) (hn : n.Regular) {child : Node} {xs ys : List (Bytes × Link)}
    (hchild : e.child.Rewrites child (xs ++ ys)) (stamp : Stamp) :
    (do
      let n' ← recompress { n with stamp, edges := n.edges.set l.length { e with child } } l.length
      pure n'.refresh : Edit Node).Yields fun n' =>
        n.Rewrites n' ((ownListing n.leaf ++ edgeListing l ++ under e.child.segment xs) ++
          (under e.child.segment ys ++ edgeListing r)) := by
  have hlabelled : child.segment.head? = some e.label := by
    rw [hchild.segment, (hn.edge h.mem).labelled]
  rw [h.set]
  refine (Around.recompress_yields (h.label ▸ h.around) hn hchild.regular hlabelled stamp).mono ?_
  intro n' hnode
  rw [hchild.segment, hchild.listing, under_append] at hnode
  simpa only [List.append_assoc] using hnode

/-- **Taking a leaf away** takes its key out of the listing and changes nothing else. -/
theorem Regular.erase_yields {n : Node} (hn : n.Regular) {key : Bytes} {xs ms ys : List (Bytes × Link)}
    (hs : SplitsAt key n.listing xs ms ys) :
    (n.erase key).Yields fun n' => n.Rewrites n' (xs ++ ys) := by
  induction hn using Regular.induct generalizing key xs ms ys with
  | step n hn ih =>
      rw [Node.erase]
      refine Yields.bind_fresh fun s => ?_
      cases key with
      | nil =>
          obtain ⟨rfl, -, rfl⟩ := hs.unique hn.splitsAt_nil
          refine Yields.pure ⟨?_, rfl, ?_⟩
          · exact Regular.refresh hn.ascending (by simp) fun e he => hn.edge he
          · rw [listing_refresh, listing_eq]
            rfl
      | cons b bs =>
          dsimp only
          rcases hn.hit_or_miss b with ⟨l, e, r, h⟩ | ⟨l, r, h⟩
          · rw [h.spot]
            dsimp only
            split
            · rename_i hnone
              rw [h.getElem?] at hnone
              simp at hnone
            · rename_i e' he'
              obtain rfl := Option.some.inj (h.getElem?.symm.trans he')
              cases hout : Bytes.after? e.child.segment (b :: bs) with
              | none =>
                  obtain rfl := h.absent hn hs hout
                  exact Yields.pure (hn.rewrites_absent hs s)
              | some rest =>
                  -- the induction hypothesis asks for a split of the child's listing, which widens to the one given
                  obtain ⟨xs', ms', ys', hs', -⟩ := (hn.edge h.mem).regular.sorted.splitsAt rest
                  obtain ⟨rfl, -, rfl⟩ := hs.unique (h.splitsAt hn (Bytes.after?_eq_some_iff.1 hout) hs')
                  exact Yields.bind (ih e h.mem hs') fun child hchild => h.recompress_yields hn hchild s
          · obtain rfl := (hs.unique (h.splitsAt hn bs)).2.1
            rw [h.spot]
            exact Yields.pure (hn.rewrites_absent hs s)

/-- A stretch with something in it lies behind an edge: behind all of it, or behind a part of it. -/
theorem Regular.covered {n : Node} (hn : n.Regular) {xs ms ys : List (Bytes × Link)}
    (hs : SplitsUnder (b :: bs) n.listing xs ms ys) (hne : ms ≠ []) :
    ∃ l e r, n.Hit b l e r ∧
      (((b :: bs).length ≤ e.child.segment.length ∧ xs = ownListing n.leaf ++ edgeListing l ∧
          ys = edgeListing r) ∨
        ∃ rest xs' ms' ys', ¬ (b :: bs).length ≤ e.child.segment.length ∧
          (b :: bs).drop e.child.segment.length = rest ∧ SplitsUnder rest e.child.listing xs' ms' ys' ∧ ms' ≠ [] ∧
          xs = ownListing n.leaf ++ edgeListing l ++ under e.child.segment xs' ∧
          ys = under e.child.segment ys' ++ edgeListing r) := by
  rcases hn.hit_or_miss b with ⟨l, e, r, h⟩ | ⟨l, r, h⟩
  · refine ⟨l, e, r, h, ?_⟩
    have he := hn.edge h.mem
    cases hstarts : Bytes.starts (b :: bs) e.child.segment with
    | true =>
        have hstart := Bytes.starts_iff.1 hstarts
        obtain ⟨rfl, -, rfl⟩ := hs.unique (h.splitsUnder_all hn hstart)
        exact Or.inl ⟨hstart.length_le, rfl, rfl⟩
    | false =>
        cases hout : Bytes.after? e.child.segment (b :: bs) with
        | none =>
            -- bytes that part from the segment have nothing within
            obtain ⟨xs', ys', hs'⟩ := h.splitsUnder_none hn hout hstarts
            exact absurd (hs.unique hs').2.1 hne
        | some rest =>
            have hkey := Bytes.after?_eq_some_iff.1 hout
            obtain ⟨xs', ms', ys', hs', -⟩ := he.regular.covering?_splits rest
            obtain ⟨rfl, rfl, rfl⟩ := hs.unique (h.splitsUnder hn hkey hs')
            refine Or.inr ⟨rest, xs', ms', ys', ?_, ?_, hs', ?_, rfl, rfl⟩
            · -- a segment that is no shorter would itself start with the bytes
              intro hle
              rw [hkey, List.length_append] at hle
              have hnil : rest = [] := List.eq_nil_of_length_eq_zero (by omega)
              rw [hkey, hnil, List.append_nil, Bytes.starts_iff.2 (List.prefix_refl _)] at hstarts
              simp at hstarts
            · rw [hkey, List.drop_left]
            · exact fun hnil => hne (by rw [hnil, under_nil])
  · exact absurd (hs.unique (h.splitsUnder hn bs)).2.1 hne

/-- **Taking away a stretch of leaves** takes it out of the listing and changes nothing else. -/
theorem Regular.eraseUnder_yields {n : Node} (hn : n.Regular) {start : Bytes} {xs ms ys : List (Bytes × Link)}
    (hs : SplitsUnder start n.listing xs ms ys) (hne : ms ≠ []) :
    (n.eraseUnder start).Yields fun n' => n.Rewrites n' (xs ++ ys) := by
  induction hn using Regular.induct generalizing start xs ms ys with
  | step n hn ih =>
      rw [Node.eraseUnder]
      refine Yields.bind_fresh fun s => ?_
      cases start with
      | nil =>
          obtain ⟨rfl, -, rfl⟩ := hs.unique n.splitsUnder_nil
          refine Yields.pure ⟨?_, rfl, ?_⟩
          · exact Regular.refresh List.Pairwise.nil (by simp) (by simp)
          · rw [listing_refresh, listing_eq]
            rfl
      | cons b bs =>
          obtain ⟨l, e, r, h, hcase⟩ := hn.covered hs hne
          dsimp only
          rw [h.spot]
          dsimp only
          split
          · rename_i hnone
            rw [h.getElem?] at hnone
            simp at hnone
          · rename_i e' he'
            obtain rfl := Option.some.inj (h.getElem?.symm.trans he')
            rcases hcase with ⟨hle, rfl, rfl⟩ | ⟨rest, xs', ms', ys', hle, hrest, hs', hne', rfl, rfl⟩
            · rw [if_pos hle, h.eraseIdx]
              exact Yields.pure (h.around.rewrites_without hn s)
            · rw [if_neg hle, hrest]
              exact Yields.bind (ih e h.mem hs' hne') fun child hchild => h.recompress_yields hn hchild s

end OrderedStore.Node
