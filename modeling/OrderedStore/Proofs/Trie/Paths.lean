import Mathlib.Tactic
import OrderedStore.Proofs.Trie.Listing
import OrderedStore.Trie.Audit

/-!
# Nodes and leaves by their paths

The path of a node is what the segments on the way to it come to. This file says of the nodes and leaves
met on paths what the listing says of keys: a key with its link is listed exactly if the node at that path
holds that link, and each node remembers the first and the last of the leaves below it.
-/

namespace OrderedStore.Node

/-- A node met on a path from another one, with the segments of both and of all in between. -/
inductive Reaches : Node → Bytes → Node → Prop
  | here (n : Node) : Reaches n n.segment n
  | behind {n m : Node} {e : Edge Node} {path : Bytes} (he : e ∈ n.edges) (h : Reaches e.child path m) :
    Reaches n (n.segment ++ path) m

/-- A leaf met on a path. -/
def LeafAt (n : Node) (path : Bytes) (link : Link) : Prop := ∃ m, n.Reaches path m ∧ m.leaf = some link

/-- The link to the first leaf below a node, in key order, or no link if there is no leaf. -/
def FirstBelow (n : Node) (first : Link) : Prop :=
  match first with
  | none => ∀ path link, ¬ n.LeafAt path link
  | some id => ∃ path, n.LeafAt path (some id) ∧
      ∀ path' link, n.LeafAt path' link → path < path' ∨ (path = path' ∧ link = some id)

/-- The link to the last leaf below a node. -/
def LastBelow (n : Node) (last : Link) : Prop :=
  match last with
  | none => ∀ path link, ¬ n.LeafAt path link
  | some id => ∃ path, n.LeafAt path (some id) ∧
      ∀ path' link, n.LeafAt path' link → path' < path ∨ (path' = path ∧ link = some id)

theorem Regular.reaches {n m : Node} {path : Bytes} (hr : n.Reaches path m) : n.Regular → m.Regular := by
  induction hr with
  | here n => exact id
  | behind he _ ih => exact fun hn => ih (hn.edge he).regular

/-- **The listing is made of the leaves on paths.** -/
theorem Regular.leafAt_iff {n : Node} (hn : n.Regular) (path : Bytes) (link : Link) :
    n.LeafAt path link ↔ (path, link) ∈ under n.segment n.listing := by
  induction hn using Regular.induct generalizing path with
  | step n hn ih =>
      rw [listing_eq, under_append, List.mem_append]
      constructor
      · rintro ⟨m, hr, hleaf⟩
        -- the path ends here, or goes on behind an edge
        cases hr with
        | here =>
            refine Or.inl ?_
            rw [hleaf, ownListing_some, under_cons, List.append_nil]
            exact List.mem_cons_self
        | @behind _ _ e rest he h =>
            refine Or.inr (mem_under.2 ⟨(rest, link), ?_, rfl⟩)
            have hmem := (ih e he rest).1 ⟨m, h, hleaf⟩
            obtain ⟨y, hy, hyx⟩ := mem_under.1 hmem
            exact mem_edgeListing.2 ⟨e, he, y, hy, hyx⟩
      · rintro (h | h)
        · cases hl : n.leaf with
          | none => simp [hl] at h
          | some link' =>
              rw [hl, ownListing_some, under_cons, under_nil, List.append_nil, List.mem_singleton] at h
              obtain ⟨rfl, rfl⟩ := Prod.mk.inj h
              exact ⟨n, .here n, hl⟩
        · obtain ⟨x, hx, hpath⟩ := mem_under.1 h
          obtain ⟨e, he, y, hy, rfl⟩ := mem_edgeListing.1 hx
          obtain ⟨rfl, rfl⟩ := Prod.mk.inj hpath
          obtain ⟨m, hr, hleaf⟩ := (ih e he (e.child.segment ++ y.1)).2 (mem_under.2 ⟨y, hy, rfl⟩)
          exact ⟨m, .behind he hr, hleaf⟩

theorem Regular.no_leafAt {n : Node} (hn : n.Regular) (hnil : n.listing = []) (path : Bytes) (link : Link) :
    ¬ n.LeafAt path link := by
  rw [hn.leafAt_iff, hnil]
  simp

/-- **A regular node remembers the first leaf below it.** -/
theorem Regular.firstBelow {n : Node} (hn : n.Regular) : n.FirstBelow n.least := by
  rw [hn.least_eq_head]
  cases hl : n.listing with
  | nil => exact hn.no_leafAt hl
  | cons x rest =>
      obtain ⟨key, link⟩ := x
      -- a listed leaf leads somewhere, so the first link is a leaf's
      have hleads := hn.leads_all (key, link) (by rw [hl]; exact List.mem_cons_self)
      obtain ⟨id, rfl⟩ := Option.isSome_iff_exists.1 hleads
      refine ⟨n.segment ++ key, (hn.leafAt_iff _ _).2 ?_, fun path' link' h' => ?_⟩
      · rw [hl, under_cons]
        exact List.mem_cons_self
      · have hsorted := hn.sorted
        rw [hl] at hsorted
        obtain ⟨y, hy, hpath⟩ := mem_under.1 ((hn.leafAt_iff _ _).1 h')
        obtain ⟨rfl, rfl⟩ := Prod.mk.inj hpath
        rw [hl] at hy
        rcases List.mem_cons.1 hy with rfl | hy
        · exact Or.inr ⟨rfl, rfl⟩
        · exact Or.inl ((Bytes.append_lt_append_iff _ _ _).2 ((List.pairwise_cons.1 hsorted).1 y hy))

theorem Regular.lastBelow {n : Node} (hn : n.Regular) : n.LastBelow n.greatest := by
  rw [hn.greatest_eq_last]
  rcases List.eq_nil_or_concat' n.listing with hl | ⟨rest, ⟨key, link⟩, hl⟩
  · rw [hl]
    exact hn.no_leafAt hl
  · have hleads := hn.leads_all (key, link) (by rw [hl]; simp)
    obtain ⟨id, rfl⟩ := Option.isSome_iff_exists.1 hleads
    rw [hl, List.getLast?_concat]
    refine ⟨n.segment ++ key, (hn.leafAt_iff _ _).2 ?_, fun path' link' h' => ?_⟩
    · rw [hl, under_append]
      simp
    · have hsorted := hn.sorted
      rw [hl] at hsorted
      obtain ⟨y, hy, hpath⟩ := mem_under.1 ((hn.leafAt_iff _ _).1 h')
      obtain ⟨rfl, rfl⟩ := Prod.mk.inj hpath
      rw [hl] at hy
      rcases List.mem_append.1 hy with hy | hy
      · refine Or.inl ((Bytes.append_lt_append_iff _ _ _).2 ?_)
        exact (List.pairwise_append.1 hsorted).2.2 y hy _ List.mem_cons_self
      · rw [List.mem_singleton.1 hy]
        exact Or.inr ⟨rfl, rfl⟩

/-- **As many nodes hold a leaf as the listing is long.** -/
theorem leafCount_eq (n : Node) : n.leafCount = n.listing.length := by
  induction n using leafCount.induct with
  | case1 n ih =>
      have hown : (if n.leaf.isSome then 1 else 0) = (ownListing n.leaf).length := by
        cases n.leaf <;> rfl
      -- both sides add up over the edges, what is behind each by induction
      rw [leafCount, listing_eq, List.length_append, hown, ← List.sum_eq_foldr]
      unfold edgeListing
      rw [List.length_flatMap]
      conv_rhs => rw [← List.attach_map_subtype_val n.edges, List.map_map]
      refine congrArg (_ + List.sum ·) (List.map_congr_left fun x _ => ?_)
      exact (ih x.1 x.2).trans (List.length_map _).symm

end OrderedStore.Node
