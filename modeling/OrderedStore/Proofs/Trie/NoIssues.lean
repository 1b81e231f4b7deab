import Mathlib.Tactic
import OrderedStore.Proofs.Answers
import OrderedStore.Proofs.OrderedMap.Audit
import OrderedStore.Proofs.Pool.Census

/-!
# What a trie without issues is

An audit asks for local facts only: of a node what its edges and its own leaf show, of two leaves in a chain that
they are linked both ways and in order. Where it finds nothing these facts hold everywhere, and together they say
what the trie is. Every node is regular and has its leaves where the pool has them, and the chain from the first leaf
is a strand of leaves in key order that ends at the last one. Nothing is known of the trie and its pool beforehand.
-/

namespace OrderedStore

variable {V : Type} {leaves : Pool V}

namespace Node

/-- What a node and everything below it are when none of them has an issue. -/
structure Clear (leaves : Pool V) (isRoot : Bool) (above : Bytes) (n : Node) : Prop where
  standing : n.Standing isRoot
  regular : n.Regular
  placed : n.Placed leaves above

theorem Plain.clear {isRoot : Bool} {above : Bytes} {n : Node} (h : Plain leaves isRoot (above ++ n.segment) n)
    (hbelow : ∀ e ∈ n.edges, Clear leaves false (above ++ n.segment) e.child) : Clear leaves isRoot above n where
  standing := h.standing
  regular := by
    refine .intro h.ascending (fun hnone => ?_) h.least h.greatest h.labelled (fun e he => ?_) fun e he =>
      (hbelow e he).regular
    · -- no leaf is behind a link that leads nowhere
      obtain ⟨leaf, hget, -⟩ := h.placed none hnone
      cases hget
    · exact ((hbelow e he).standing.resolve_left Bool.false_ne_true).2
  placed := by
    rintro path link ⟨m, hr, hleaf⟩
    cases hr with
    | here => exact h.placed link hleaf
    | @behind _ _ e rest he hr =>
        obtain ⟨leaf, hget, hkey⟩ := (hbelow e he).placed rest link ⟨m, hr, hleaf⟩
        exact ⟨leaf, hget, by rw [hkey, List.append_assoc]⟩

theorem Clear.stores {isRoot : Bool} {above : Bytes} {n : Node} (h : Clear leaves isRoot above n) {x : Bytes × Link}
    (hx : x ∈ under n.segment n.listing) : ∃ e, leaves.Stores e ∧ (e.key, some e.id) = (above ++ x.1, x.2) := by
  obtain ⟨leaf, hget, hkey⟩ := h.placed x.1 x.2 ((h.regular.leafAt_iff x.1 x.2).2 hx)
  obtain ⟨id, hid, hleaf⟩ := Pool.get_eq_ok hget
  exact ⟨leaf.entry id, Pool.stores_of_leaf? hleaf, by rw [hid, ← hkey]; rfl⟩

/-- **A node without issues below it is regular** and has its leaves where the pool has them, by induction on the
node. -/
theorem clear_of_issues {isRoot : Bool} {above : Bytes} (n : Node) (h : n.issues leaves isRoot above = .ok []) :
    Clear leaves isRoot above n := by
  rw [issues] at h
  obtain ⟨own, hown, hrest⟩ := exists_of_bind_eq_ok h
  obtain ⟨below, hbelow, hall⟩ := exists_of_bind_eq_ok hrest
  have hnil := Except.ok.inj hall
  rw [List.append_eq_nil_iff, List.flatten_eq_nil_iff] at hnil
  obtain ⟨rfl, hempty⟩ := hnil
  refine (ownIssues_eq_nil_iff.1 hown).clear fun e he => ?_
  obtain ⟨issues, hmem, hissues⟩ := exists_of_mapM_eq_ok hbelow ⟨e, he⟩ (List.mem_attach _ _)
  exact clear_of_issues e.child (hempty issues hmem ▸ hissues)
termination_by sizeOf n
decreasing_by exact sizeOf_child_lt he

end Node

namespace Trie

/-- One step along a chain without issues: it ends here with every leaf counted, or goes on to a leaf that is linked
with this one and comes after it. -/
theorem of_chainIssues {size room seen : Nat} {last : Link} {id : LeafId} {leaf : Leaf V}
    (hleaf : leaves.leaf? id = some leaf) (h : chainIssues leaves size last room seen (some id) = .ok []) :
    (some id = last ∧ seen = size) ∨
      ∃ room' id' leaf', room = room' + 1 ∧ leaf.next = some id' ∧ leaves.leaf? id' = some leaf' ∧
        leaf'.prev = some id ∧ leaf.key < leaf'.key ∧
        chainIssues leaves size last room' (seen + 1) (some id') = .ok [] := by
  unfold chainIssues at h
  by_cases hend : some id = last
  · rw [if_pos hend] at h
    exact Or.inl ⟨hend, ite_eq_nil_iff.1 (Except.ok.inj h)⟩
  · rw [if_neg hend] at h
    obtain ⟨next, hnext, hgoes⟩ := exists_of_bind_eq_ok h
    rw [Pool.nextOf_ok hleaf, Except.ok.injEq] at hnext
    by_cases hnone : next = none
    · rw [if_pos hnone] at hgoes
      cases hgoes
    · rw [if_neg hnone] at hgoes
      obtain ⟨found, hlink, hrest⟩ := exists_of_bind_eq_ok hgoes
      cases room with
      | zero => exact absurd (Except.ok.inj hrest) (by simp)
      | succ room =>
          obtain ⟨further, hfurther, hall⟩ := exists_of_bind_eq_ok hrest
          have hnil := Except.ok.inj hall
          rw [List.append_eq_nil_iff] at hnil
          obtain ⟨rfl, rfl⟩ := hnil
          obtain ⟨here, there, hhere, hthere, hprev, hlt⟩ := linkIssues_eq_nil_iff.1 hlink
          obtain ⟨id', hid', hleaf'⟩ := Pool.get_eq_ok hthere
          rw [Pool.get_ok hleaf, Except.ok.injEq] at hhere
          subst hhere
          exact Or.inr ⟨room, id', there, rfl, hnext.trans hid', hleaf', hprev, hlt, hid' ▸ hfurther⟩

/-- **A chain without issues is a strand** of leaves in key order, from where the audit begins to the last leaf, and the
audit has counted them. By recursion on the room that is left. -/
theorem strand_of_chainIssues {size room seen : Nat} {last : Link} {id : LeafId} {leaf : Leaf V}
    (hleaf : leaves.leaf? id = some leaf) (h : chainIssues leaves size last room seen (some id) = .ok []) :
    ∃ rest after, leaves.Strand leaf.prev (leaf.entry id :: rest) after ∧ Entry.Ordered (leaf.entry id :: rest) ∧
      last = Entry.last (leaf.entry id :: rest) ∧ seen + rest.length = size := by
  rcases of_chainIssues hleaf h with ⟨hend, hseen⟩ | ⟨room', id', leaf', hroom, hnext, hleaf', hprev, hlt, hfurther⟩
  · exact ⟨[], leaf.next, ⟨hleaf, trivial⟩, List.pairwise_singleton _ _, hend.symm, hseen⟩
  · -- the next leaf begins a strand, and this one is what comes before it
    obtain ⟨rest, after, hstrand, hordered, hlast, hcount⟩ := strand_of_chainIssues hleaf' hfurther
    rw [hprev] at hstrand
    refine ⟨leaf'.entry id' :: rest, after, ⟨?_, hstrand⟩, ?_, ?_, ?_⟩
    · rw [Entry.first_cons, Option.some_or, show some (leaf'.entry id').id = leaf.next from hnext.symm]
      exact hleaf
    · refine List.pairwise_cons.2 ⟨fun e he => ?_, hordered⟩
      rcases List.mem_cons.1 he with rfl | he
      · exact hlt
      · exact List.lt_trans hlt ((List.pairwise_cons.1 hordered).1 e he)
    · rw [hlast, Entry.last_cons (leaf.entry id), Entry.last_cons, Option.or_some, Option.some_or]
    · rw [List.length_cons]
      omega
termination_by room
decreasing_by omega

variable {t : Trie} {fs : List (Entry V)}

/-- What a trie shows when it has no issues. -/
structure Clear (leaves : Pool V) (t : Trie) : Prop where
  path : t.root.segment = []
  node : Node.Clear leaves true [] t.root
  count : t.root.leafCount = t.size
  /-- The chain is followed if the trie knows both its ends. -/
  chain : t.first ≠ none → t.last ≠ none → chainIssues leaves t.size t.last (t.size - 1) 1 t.first = .ok []

theorem clear_of_issues (h : t.issues leaves = .ok []) : Clear leaves t := by
  unfold issues at h
  obtain ⟨nodes, hnodes, hrest⟩ := exists_of_bind_eq_ok h
  -- the chain is left out of the audit if the trie does not know its ends
  obtain ⟨chain, hchain, hnil⟩ : ∃ chain,
      (t.first ≠ none → t.last ≠ none → chainIssues leaves t.size t.last (t.size - 1) 1 t.first = .ok chain) ∧
      (if t.root.segment = [] then [] else [Issue.rootSegment]) ++ nodes ++
        (if t.root.leafCount = t.size then [] else [Issue.leafCount t.root.leafCount t.size]) ++ chain = [] := by
    dsimp only at hrest
    split at hrest
    · rename_i hends
      exact ⟨[], fun hfirst hlast => absurd hends (not_or.2 ⟨hfirst, hlast⟩), Except.ok.inj hrest⟩
    · obtain ⟨chain, hchain, hall⟩ := exists_of_bind_eq_ok hrest
      exact ⟨chain, fun _ _ => hchain, Except.ok.inj hall⟩
  simp only [List.append_eq_nil_iff, ite_eq_nil_iff] at hnil
  obtain ⟨⟨⟨hroot, rfl⟩, hcount⟩, rfl⟩ := hnil
  exact ⟨hroot, Node.clear_of_issues t.root hnodes, hcount, hchain⟩

/-- A trie without issues holds entries that the pool stores. -/
theorem Clear.exists_holds (h : Clear leaves t) : ∃ fs, t.Holds fs ∧ ∀ e ∈ fs, leaves.Stores e := by
  obtain ⟨fs, hlisted, hstores⟩ := Pool.exists_listed fun x hx => h.node.stores (by rwa [h.path, under_empty])
  refine ⟨fs, ⟨h.node.regular, h.path, hlisted.symm, ?_⟩, hstores⟩
  rw [← h.count, Node.leafCount_eq, ← hlisted, Entry.listed, List.length_map]

/-- The chain of a trie without issues is a strand between the ends of the trie, of as many entries as it counts. -/
theorem Clear.exists_strand (h : Clear leaves t) (hfs : t.Holds fs) (hstores : ∀ e ∈ fs, leaves.Stores e) :
    ∃ es before after, leaves.Strand before es after ∧ Entry.Ordered es ∧ es.length = t.size ∧
      t.first = Entry.first es ∧ t.last = Entry.last es := by
  cases fs with
  | nil => exact ⟨[], none, none, trivial, List.Pairwise.nil, hfs.size.symm, hfs.first_eq, hfs.last_eq⟩
  | cons f fs =>
      -- both ends are known, so the audit has followed the chain
      have hlast : t.last ≠ none := by
        rw [hfs.last_eq, Ne, Entry.last_eq_none_iff]
        exact List.cons_ne_nil f fs
      have hfirst := hfs.first_eq
      rw [Entry.first_cons] at hfirst
      have hchain := h.chain (by rw [hfirst]; exact Option.some_ne_none _) hlast
      rw [hfirst] at hchain
      obtain ⟨leaf, hleaf, -⟩ := hstores f List.mem_cons_self
      obtain ⟨rest, after, hstrand, hordered, hend, hcount⟩ := strand_of_chainIssues hleaf hchain
      exact ⟨_, leaf.prev, after, hstrand, hordered, by rw [List.length_cons]; omega, hfirst, hend⟩

end Trie

end OrderedStore
