import Mathlib.Tactic
import OrderedStore.Proofs.Trie.Listing

/-!
# The shape of a trie

Two tries have the same shape if they are equal as trees: the same segments, the same edges in the same order, and
leaves at the same nodes. Which stamps the nodes carry and which slots the leaves lie in is left out.

The keys below a regular node leave no choice for its shape. Whether it holds a leaf is whether the empty key is below
it, and its labels are the first bytes of the other keys. The segment behind a label is the longest beginning that all
keys with that first byte have in common: a node worth having holds a leaf, and then one of the keys is the segment
itself, or two ways part at it, and then two of the keys differ right after the segment.
-/

namespace OrderedStore

/-- What a node looks like with everything below it. -/
structure Shape where
  segment : Bytes
  /-- Whether a leaf is held here. -/
  held : Bool
  edges : List (Edge Shape)

/-- What two keys have in common that part after some bytes is no longer than those. -/
theorem Bytes.isPrefix_of_parting {head way s s' : Bytes} {b b' : UInt8} (hne : b ≠ b') (h : head <+: way ++ b :: s)
    (h' : head <+: way ++ b' :: s') : head <+: way := by
  rcases List.prefix_or_prefix_of_prefix h (List.prefix_append way (b :: s)) with hshort | ⟨more, rfl⟩
  · exact hshort
  · -- anything more would have to go on with both bytes
    rw [List.prefix_append_right_inj] at h h'
    cases more with
    | nil => rw [List.append_nil]
    | cons c more =>
        have hb := (List.cons_prefix_cons.1 h).1
        have hb' := (List.cons_prefix_cons.1 h').1
        exact absurd (hb.symm.trans hb') hne

namespace Edge

variable {α β : Type}

/-- An edge with something else behind its label. -/
def map (f : α → β) (e : Edge α) : Edge β := ⟨e.label, f e.child⟩

/-- **Ascending edges are told by which ones there are.** -/
theorem Ascending.eq_of_mem_iff {edges edges' : List (Edge α)} (h : Ascending edges) (h' : Ascending edges')
    (hmem : ∀ e, e ∈ edges ↔ e ∈ edges') : edges = edges' := by
  have hirrefl : Std.Irrefl fun a b : Edge α => a.label < b.label := ⟨fun a => UInt8.lt_irrefl a.label⟩
  have hasymm : Std.Antisymm fun a b : Edge α => a.label < b.label :=
    ⟨fun a b hab hba => absurd hba (UInt8.lt_asymm hab)⟩
  exact List.Pairwise.eq_of_mem_iff h h' hmem

theorem Ascending.label_inj {edges : List (Edge α)} (h : Ascending edges) {e e' : Edge α} (he : e ∈ edges)
    (he' : e' ∈ edges) (hlabel : e.label = e'.label) : e = e' := by
  have hnodup : (edges.map Edge.label).Nodup := List.pairwise_map.2 (h.imp fun hlt => UInt8.ne_of_lt hlt)
  exact List.inj_on_of_nodup_map hnodup he he' hlabel

theorem ascending_map (f : α → β) {edges : List (Edge α)} : Ascending (edges.map (Edge.map f)) ↔ Ascending edges :=
  List.pairwise_map

end Edge

namespace Node

/-- The shape of a node. -/
def shape (n : Node) : Shape :=
  ⟨n.segment, n.leaf.isSome, n.edges.attach.map fun ⟨e, _⟩ => ⟨e.label, e.child.shape⟩⟩
termination_by sizeOf n
decreasing_by exact sizeOf_child_lt (by assumption)

theorem shape_eq (n : Node) : n.shape = ⟨n.segment, n.leaf.isSome, n.edges.map (Edge.map shape)⟩ := by
  rw [shape]
  simp [Edge.map]

/-! ## The keys below a node -/

/-- A key is below the node, counted from the node's own end. -/
def Has (n : Node) (key : Bytes) : Prop := ∃ link, (key, link) ∈ n.listing

/-- A key is behind an edge, counted from where the edge starts. -/
def Behind (e : Edge Node) (key : Bytes) : Prop := ∃ rest, e.child.Has rest ∧ e.child.segment ++ rest = key

variable {n m : Node} {e e' : Edge Node} {key : Bytes}

theorem has_iff : n.Has key ↔ (key = [] ∧ n.leaf.isSome) ∨ ∃ e ∈ n.edges, Behind e key := by
  have hown : (∃ link, (key, link) ∈ ownListing n.leaf) ↔ key = [] ∧ n.leaf.isSome := by
    cases n.leaf <;> simp
  have hedges : (∃ link, (key, link) ∈ edgeListing n.edges) ↔ ∃ e ∈ n.edges, Behind e key := by
    constructor
    · rintro ⟨link, hmem⟩
      obtain ⟨e, he, y, hy, heq⟩ := mem_edgeListing.1 hmem
      exact ⟨e, he, y.1, ⟨y.2, hy⟩, congrArg Prod.fst heq⟩
    · rintro ⟨e, he, rest, ⟨link, hmem⟩, rfl⟩
      exact ⟨link, mem_edgeListing.2 ⟨e, he, (rest, link), hmem, rfl⟩⟩
  rw [Has, ← hown, ← hedges, ← exists_or, listing_eq]
  simp only [List.mem_append]

/-- A node worth having has a key below it. -/
theorem Regular.exists_has (hn : n.Regular) (hneeded : n.Needed) : ∃ key, n.Has key := by
  obtain ⟨⟨key, link⟩, hmem⟩ := List.exists_mem_of_ne_nil _ (hn.listing_ne_nil hneeded)
  exact ⟨key, link, hmem⟩

theorem RegularEdge.exists_behind (h : RegularEdge e) : ∃ key, Behind e key := by
  obtain ⟨rest, hrest⟩ := h.regular.exists_has h.needed
  exact ⟨_, rest, hrest, rfl⟩

/-- Every key behind an edge starts with its label. -/
theorem RegularEdge.behind_cons (h : RegularEdge e) (hkey : Behind e key) : ∃ s, key = e.label :: s := by
  obtain ⟨rest, -, rfl⟩ := hkey
  obtain ⟨s, hs⟩ := h.segment_eq
  exact ⟨s ++ rest, by rw [hs, List.cons_append]⟩

theorem Regular.has_nil_iff (hn : n.Regular) : n.Has [] ↔ n.leaf.isSome := by
  rw [has_iff, and_iff_right rfl, or_iff_left]
  rintro ⟨e, he, hbehind⟩
  obtain ⟨s, hs⟩ := (hn.edge he).behind_cons hbehind
  cases hs

theorem has_of_behind (he : e ∈ n.edges) (hkey : Behind e key) : n.Has key := has_iff.2 (Or.inr ⟨e, he, hkey⟩)

/-- A key with the label of an edge is below the node only if it is behind that edge. -/
theorem Regular.behind_of_has (hn : n.Regular) (he : e ∈ n.edges) {s : Bytes} (h : n.Has (e.label :: s)) :
    Behind e (e.label :: s) := by
  rcases has_iff.1 h with ⟨hnil, -⟩ | ⟨e', he', hbehind⟩
  · cases hnil
  · obtain ⟨s', hs'⟩ := (hn.edge he').behind_cons hbehind
    have hlabel : e.label = e'.label := (List.cons.inj hs').1
    obtain rfl := hn.ascending.label_inj he he' hlabel
    exact hbehind

/-! ## The segment behind a label -/

/-- **What all keys below a node worth having start with** is no longer than the way to the node. -/
theorem Regular.isPrefix_of_has (hn : n.Regular) (hneeded : n.Needed) {head way : Bytes}
    (h : ∀ key, n.Has key → head <+: way ++ key) : head <+: way := by
  rcases hneeded with hleaf | htwo
  · -- the key that ends here is the way itself
    have hown := h [] (hn.has_nil_iff.2 hleaf)
    rwa [List.append_nil] at hown
  · obtain ⟨e, e', rest, hedges⟩ : ∃ e e' rest, n.edges = e :: e' :: rest := by
      match n.edges, htwo with
      | e :: e' :: rest, _ => exact ⟨e, e', rest, rfl⟩
    have he : e ∈ n.edges := by simp [hedges]
    have he' : e' ∈ n.edges := by simp [hedges]
    have hlt : e.label < e'.label := by
      have hasc := hn.ascending
      rw [hedges] at hasc
      exact (List.pairwise_cons.1 hasc).1 e' List.mem_cons_self
    -- behind each of the two ways there is a key, and these keys part here
    obtain ⟨key, hkey⟩ := (hn.edge he).exists_behind
    obtain ⟨key', hkey'⟩ := (hn.edge he').exists_behind
    have hhead := h key (has_of_behind he hkey)
    have hhead' := h key' (has_of_behind he' hkey')
    obtain ⟨s, rfl⟩ := (hn.edge he).behind_cons hkey
    obtain ⟨s', rfl⟩ := (hn.edge he').behind_cons hkey'
    exact Bytes.isPrefix_of_parting (UInt8.ne_of_lt hlt) hhead hhead'

theorem RegularEdge.segment_isPrefix (h : RegularEdge e) (hkeys : ∀ key, Behind e key → Behind e' key) :
    e'.child.segment <+: e.child.segment := by
  refine h.regular.isPrefix_of_has h.needed fun key hkey => ?_
  obtain ⟨rest, -, hrest⟩ := hkeys _ ⟨key, hkey, rfl⟩
  exact hrest ▸ List.prefix_append _ rest

/-- **The segment behind an edge is told by the keys behind it.** -/
theorem RegularEdge.segment_unique (h : RegularEdge e) (h' : RegularEdge e')
    (hkeys : ∀ key, Behind e key ↔ Behind e' key) : e.child.segment = e'.child.segment :=
  (h'.segment_isPrefix fun key => (hkeys key).2).eq_of_length_le
    (h.segment_isPrefix fun key => (hkeys key).1).length_le

theorem has_iff_behind : e.child.Has key ↔ Behind e (e.child.segment ++ key) :=
  ⟨fun h => ⟨key, h, rfl⟩, fun ⟨_, h, heq⟩ => List.append_cancel_left heq ▸ h⟩

/-! ## The whole shape -/

/-- An edge has its like in any regular node with the same keys below it. -/
theorem Regular.edge_unique (hn : n.Regular) (hm : m.Regular) (hkeys : ∀ key, n.Has key ↔ m.Has key)
    (he : e ∈ n.edges) : ∃ e' ∈ m.edges, e'.label = e.label ∧ e'.child.segment = e.child.segment ∧
      ∀ key, e.child.Has key ↔ e'.child.Has key := by
  obtain ⟨key, hkey⟩ := (hn.edge he).exists_behind
  obtain ⟨s, rfl⟩ := (hn.edge he).behind_cons hkey
  rcases has_iff.1 ((hkeys _).1 (has_of_behind he hkey)) with ⟨hnil, -⟩ | ⟨e', he', hkey'⟩
  · cases hnil
  · obtain ⟨s', hs'⟩ := (hm.edge he').behind_cons hkey'
    have hlabel : e'.label = e.label := (List.cons.inj hs').1.symm
    -- the keys behind both edges are those below the nodes that start with their label
    have hbehind : ∀ key, Behind e key ↔ Behind e' key := by
      intro key
      constructor
      · intro h
        obtain ⟨t, rfl⟩ := (hn.edge he).behind_cons h
        have hhas := (hkeys _).1 (has_of_behind he h)
        rw [← hlabel] at hhas ⊢
        exact hm.behind_of_has he' hhas
      · intro h
        obtain ⟨t, rfl⟩ := (hm.edge he').behind_cons h
        have hhas := (hkeys _).2 (has_of_behind he' h)
        rw [hlabel] at hhas ⊢
        exact hn.behind_of_has he hhas
    have hsegment := (hn.edge he).segment_unique (hm.edge he') hbehind
    refine ⟨e', he', hlabel, hsegment.symm, fun key => ?_⟩
    rw [has_iff_behind, has_iff_behind, hbehind, hsegment]

/-- **A regular node is as its keys say**: with the same segment and the same keys below it, another one has the same
shape. -/
theorem Regular.shape_unique (hn : n.Regular) (hm : m.Regular) (hsegment : n.segment = m.segment)
    (hkeys : ∀ key, n.Has key ↔ m.Has key) : n.shape = m.shape := by
  induction hn using Regular.induct generalizing m with
  | step n hn ih =>
      have hheld : n.leaf.isSome = m.leaf.isSome := by
        rw [Bool.eq_iff_iff, ← hn.has_nil_iff, ← hm.has_nil_iff, hkeys]
      have hedges : n.edges.map (Edge.map shape) = m.edges.map (Edge.map shape) := by
        refine ((Edge.ascending_map shape).2 hn.ascending).eq_of_mem_iff ((Edge.ascending_map shape).2 hm.ascending) ?_
        intro x
        rw [List.mem_map, List.mem_map]
        constructor
        · rintro ⟨e, he, rfl⟩
          obtain ⟨e', he', hlabel, hseg, hhas⟩ := hn.edge_unique hm hkeys he
          refine ⟨e', he', ?_⟩
          rw [Edge.map, Edge.map, hlabel, ih e he (hm.edge he').regular hseg.symm hhas]
        · rintro ⟨e', he', rfl⟩
          obtain ⟨e, he, hlabel, hseg, hhas⟩ := hm.edge_unique hn (fun key => (hkeys key).symm) he'
          refine ⟨e, he, ?_⟩
          rw [Edge.map, Edge.map, hlabel, ih e he (hm.edge he').regular hseg fun key => (hhas key).symm]
      rw [shape_eq, shape_eq, hsegment, hheld, hedges]

end Node

end OrderedStore
