import Mathlib.Tactic
import OrderedStore.OrderedMap.Audit
import OrderedStore.Proofs.Answers
import OrderedStore.Proofs.OrderedMap.Walk
import OrderedStore.Proofs.Trie.Paths

/-!
# The audit of a sound map

An audit asks of every node, of every link of the chain and of the counts what a sound map has. What it
asks of a single node or link is said as a fact about them, which holds just if nothing is reported there.
On a map that holds entries it finds nothing.
-/

namespace OrderedStore

variable {V : Type}

/-- An audit that reports one issue unless something is true reports none just if it is true. -/
theorem ite_eq_nil_iff {α : Type} {p : Prop} [Decidable p] {issue : α} : (if p then [] else [issue]) = [] ↔ p := by
  rw [ite_eq_left_iff, not_imp_comm]
  simp

namespace Node

/-- The leaves below a node are where the pool has them, under the keys that their paths spell. -/
def Placed (n : Node) (leaves : Pool V) (above : Bytes) : Prop :=
  ∀ path link, n.LeafAt path link → ∃ leaf, leaves.get link = .ok leaf ∧ leaf.key = above ++ path

theorem Placed.child {n : Node} {leaves : Pool V} {above : Bytes} (h : n.Placed leaves above) {e : Edge Node}
    (he : e ∈ n.edges) : e.child.Placed leaves (above ++ n.segment) := by
  rintro path link ⟨m, hr, hleaf⟩
  obtain ⟨leaf, hget, hkey⟩ := h (n.segment ++ path) link ⟨m, .behind he hr, hleaf⟩
  exact ⟨leaf, hget, by rw [hkey, List.append_assoc]⟩

/-- A node that may stand where it is: at the root, or behind an edge that is worth having. -/
def Standing (n : Node) (isRoot : Bool) : Prop := isRoot = true ∨ (n.segment ≠ [] ∧ n.Needed)

theorem RegularEdge.standing {e : Edge Node} (he : RegularEdge e) : e.child.Standing false := by
  refine Or.inr ⟨fun hnil => ?_, he.needed⟩
  have hlabel := he.labelled
  rw [hnil] at hlabel
  simp at hlabel

/-- What a node shows by itself when it has no issue of its own. `path` is the path that ends with its segment. -/
structure Plain (leaves : Pool V) (isRoot : Bool) (path : Bytes) (n : Node) : Prop where
  standing : n.Standing isRoot
  placed : ∀ link, n.leaf = some link → ∃ leaf, leaves.get link = .ok leaf ∧ leaf.key = path
  ascending : Edge.Ascending n.edges
  labelled : ∀ e ∈ n.edges, e.child.segment.head? = some e.label
  least : n.least = leastOf n.leaf n.edges
  greatest : n.greatest = greatestOf n.leaf n.edges

theorem Regular.plain {n : Node} {leaves : Pool V} {isRoot : Bool} {above : Bytes} (hn : n.Regular)
    (hs : n.Standing isRoot) (hp : n.Placed leaves above) : Plain leaves isRoot (above ++ n.segment) n where
  standing := hs
  placed := fun link hleaf => hp n.segment link ⟨n, .here n, hleaf⟩
  ascending := hn.ascending
  labelled := fun _ he => (hn.edge he).labelled
  least := hn.least_eq
  greatest := hn.greatest_eq

theorem orderIssues_eq_nil_iff {path : Bytes} {edges : List (Edge Node)} :
    orderIssues path edges = [] ↔ Edge.Ascending edges := by
  unfold Edge.Ascending
  induction edges with
  | nil => exact iff_of_true rfl List.Pairwise.nil
  | cons a edges ih =>
      cases edges with
      | nil => exact iff_of_true rfl (List.pairwise_singleton _ a)
      | cons b edges =>
          rw [orderIssues, List.append_eq_nil_iff, ite_eq_nil_iff, ih, @List.pairwise_cons _ _ a]
          refine and_congr_left fun hrest => ?_
          constructor
          · -- what is above the next label is above this one too
            intro hlt c hc
            rcases List.mem_cons.1 hc with rfl | hc
            · exact hlt
            · exact UInt8.lt_trans hlt ((List.pairwise_cons.1 hrest).1 c hc)
          · exact fun hlt => hlt b List.mem_cons_self

theorem labelIssues_eq_nil_iff {edges : List (Edge Node)} :
    labelIssues edges = [] ↔ ∀ e ∈ edges, e.child.segment.head? = some e.label := by
  unfold labelIssues
  rw [List.filterMap_eq_nil_iff]
  refine forall₂_congr fun e _ => ?_
  rw [ite_eq_left_iff, not_imp_comm]
  simp

/-- What a node shows for standing where it is. -/
def shapeIssues (isRoot : Bool) (path : Bytes) (n : Node) : List Trie.Issue :=
  if isRoot then []
  else
    (if n.segment = [] then [.emptySegment path] else []) ++
    (if n.leaf = none ∧ n.edges.length < 2 then [.needlessNode path n.edges.length] else [])

theorem shapeIssues_eq_nil_iff {isRoot : Bool} {path : Bytes} {n : Node} :
    n.shapeIssues isRoot path = [] ↔ n.Standing isRoot := by
  unfold shapeIssues Standing
  cases isRoot with
  | true => exact iff_of_true rfl (Or.inl rfl)
  | false =>
      have hneed : n.Needed ↔ ¬ (n.leaf = none ∧ n.edges.length < 2) := by
        unfold Needed
        rw [not_and_or, Nat.not_lt, Option.isSome_iff_ne_none]
      rw [hneed]
      simp

/-- What a node shows for its own leaf. -/
def placingIssues (leaves : Pool V) (path : Bytes) (n : Node) : Except Fault (List Trie.Issue) :=
  match n.leaf with
  | none => .ok []
  | some link => do
    let leaf ← leaves.get link
    return if leaf.key = path then [] else [.misplacedKey leaf.key path]

theorem placingIssues_eq_nil_iff {leaves : Pool V} {path : Bytes} {n : Node} :
    n.placingIssues leaves path = .ok [] ↔
      ∀ link, n.leaf = some link → ∃ leaf, leaves.get link = .ok leaf ∧ leaf.key = path := by
  unfold placingIssues
  cases n.leaf with
  | none => exact iff_of_true rfl (by simp)
  | some link =>
      simp only [Option.some.injEq, forall_eq']
      cases leaves.get link with
      | error fault => exact iff_of_false (fun h => nomatch h) (by simp)
      | ok leaf =>
          change (Except.ok (if leaf.key = path then [] else [_]) : Except Fault (List Trie.Issue)) = .ok [] ↔ _
          rw [Except.ok.injEq, ite_eq_nil_iff]
          simp

/-- **A node has no issue of its own just if it is plain.** -/
theorem ownIssues_eq_nil_iff {leaves : Pool V} {isRoot : Bool} {path : Bytes} {n : Node} :
    n.ownIssues leaves isRoot path = .ok [] ↔ Plain leaves isRoot path n := by
  have hown : n.ownIssues leaves isRoot path = n.placingIssues leaves path >>= fun placing =>
      .ok (n.shapeIssues isRoot path ++ placing ++ orderIssues path n.edges ++ labelIssues n.edges ++
        if n.refresh.least = n.least ∧ n.refresh.greatest = n.greatest then [] else [.staleBounds path]) := by
    unfold ownIssues placingIssues shapeIssues
    cases n.leaf with
    | none => rfl
    | some link =>
        dsimp only
        cases leaves.get link <;> rfl
  rw [hown]
  constructor
  · intro h
    obtain ⟨placing, hplacing, hall⟩ := exists_of_bind_eq_ok h
    have hnil := Except.ok.inj hall
    simp only [List.append_eq_nil_iff, shapeIssues_eq_nil_iff, orderIssues_eq_nil_iff, labelIssues_eq_nil_iff,
      ite_eq_nil_iff] at hnil
    obtain ⟨⟨⟨⟨hstanding, rfl⟩, hascending⟩, hlabelled⟩, hleast, hgreatest⟩ := hnil
    exact ⟨hstanding, placingIssues_eq_nil_iff.1 hplacing, hascending, hlabelled, hleast.symm, hgreatest.symm⟩
  · intro h
    have hbounds : n.refresh.least = n.least ∧ n.refresh.greatest = n.greatest := ⟨h.least.symm, h.greatest.symm⟩
    rw [placingIssues_eq_nil_iff.2 h.placed, shapeIssues_eq_nil_iff.2 h.standing, orderIssues_eq_nil_iff.2 h.ascending,
      labelIssues_eq_nil_iff.2 h.labelled, if_pos hbounds]
    rfl

/-- **No node of a sound trie has an issue.** -/
theorem Regular.issues_eq {n : Node} {leaves : Pool V} {isRoot : Bool} {above : Bytes} (hn : n.Regular)
    (hs : n.Standing isRoot) (hp : n.Placed leaves above) : n.issues leaves isRoot above = .ok [] := by
  induction hn using Regular.induct generalizing isRoot above with
  | step n hn ih =>
      -- every child stands behind an edge worth having and has its leaves placed below it
      have hbelow : (fun x : { e // e ∈ n.edges } => x.1.child.issues leaves false (above ++ n.segment)) =
          fun _ => pure [] := by
        funext ⟨e, he⟩
        exact ih e he (hn.edge he).standing (hp.child he)
      rw [issues]
      dsimp only
      rw [ownIssues_eq_nil_iff.2 (hn.plain hs hp), hbelow, List.mapM_pure]
      change Except.ok ([] ++ (n.edges.attach.map fun _ => ([] : List Trie.Issue)).flatten) = _
      rw [List.nil_append, List.flatten_eq_nil_iff.2 fun l hl => (List.mem_map.1 hl).elim fun _ h => h.2.symm]

end Node

namespace Trie

/-- A link has no issue just if it joins two leaves that are in order. -/
theorem linkIssues_eq_nil_iff {leaves : Pool V} {current next : Link} :
    linkIssues leaves current next = .ok [] ↔
      ∃ here there, leaves.get current = .ok here ∧ leaves.get next = .ok there ∧ there.prev = current ∧
        here.key < there.key := by
  unfold linkIssues
  constructor
  · intro h
    obtain ⟨here, hhere, hrest⟩ := exists_of_bind_eq_ok h
    obtain ⟨there, hthere, hall⟩ := exists_of_bind_eq_ok hrest
    have hnil := Except.ok.inj hall
    rw [List.append_eq_nil_iff, ite_eq_nil_iff, ite_eq_nil_iff] at hnil
    exact ⟨here, there, hhere, hthere, hnil⟩
  · rintro ⟨here, there, hhere, hthere, hprev, hlt⟩
    rw [hhere, hthere]
    change Except.ok ((if there.prev = current then [] else _) ++ (if here.key < there.key then [] else _)) = _
    rw [if_pos hprev, if_pos hlt]
    rfl

/-- Two neighbours in a chain are linked both ways. -/
theorem linkIssues_eq {leaves : Pool V} {xs ys : List (Entry V)} {a b : Entry V}
    (hc : leaves.Chained (xs ++ a :: b :: ys)) (hlt : a.key < b.key) :
    linkIssues leaves (some a.id) (some b.id) = .ok [] := by
  have hhere := Pool.leaf?_of_mem hc
  have hcut : xs ++ a :: b :: ys = (xs ++ [a]) ++ b :: ys := by simp
  rw [hcut] at hc
  have hthere := Pool.leaf?_of_mem hc
  exact linkIssues_eq_nil_iff.2 ⟨_, _, Pool.get_ok hhere, Pool.get_ok hthere, Entry.last_concat xs a, hlt⟩

/-- An entry that another one follows is not the last of its stretch. -/
theorem ne_last {xs ys : List (Entry V)} {a b : Entry V} (hnd : ((xs ++ a :: b :: ys).map Entry.id).Nodup)
    {rest post : List (Entry V)} (hys : ys = rest ++ post) : (some a.id : Link) ≠ Entry.last (a :: b :: rest) := by
  have hstretch : ((a :: b :: rest).map Entry.id).Nodup := by
    refine hnd.sublist (List.Sublist.map _ ?_)
    rw [hys, ← List.cons_append, ← List.cons_append]
    exact (List.sublist_append_left _ post).trans (List.sublist_append_right xs _)
  have hend : Entry.last ([] ++ a :: b :: rest) = some a.id ↔ b :: rest = [] := Pool.last_mid_eq_iff hstretch
  exact fun heq => List.cons_ne_nil b rest (hend.1 heq.symm)

/-- **No link of a stretch of a chain has an issue.** What lies on either side of the stretch may belong to other
tries. The count of what was seen and the room for what is left go with the place in the stretch. -/
theorem chainIssues_eq {leaves : Pool V} {xs rest post : List (Entry V)} {e : Entry V} {size room seen : Nat}
    {last : Link} (hc : leaves.Chained (xs ++ e :: (rest ++ post))) (ho : Entry.Ordered (e :: rest))
    (hlast : last = Entry.last (e :: rest)) (hsize : size = seen + rest.length) (hroom : rest.length ≤ room) :
    chainIssues leaves size last room seen (some e.id) = .ok [] := by
  induction rest generalizing xs e room seen with
  | nil =>
      have hend : (some e.id : Link) = last := by rw [hlast, Entry.last_singleton]
      have hall : seen = size := by rw [hsize, List.length_nil, Nat.add_zero]
      unfold chainIssues
      rw [if_pos hend, if_pos hall]
      rfl
  | cons next rest ih =>
      rw [List.cons_append] at hc
      rw [Entry.Ordered, List.pairwise_cons] at ho
      obtain ⟨hlt, ho⟩ := ho
      have hne : (some e.id : Link) ≠ last := hlast ▸ ne_last hc.nodup rfl
      have hlink := linkIssues_eq hc (hlt next List.mem_cons_self)
      have hnext := Pool.nextOf_ok (Pool.leaf?_of_mem hc)
      have hcut : xs ++ e :: next :: (rest ++ post) = (xs ++ [e]) ++ next :: (rest ++ post) := by simp
      rw [hcut] at hc
      rw [List.length_cons] at hsize hroom
      obtain ⟨room, rfl⟩ : ∃ k, room = k + 1 := ⟨room - 1, by omega⟩
      -- one step on, one more was seen and there is room for one less
      have hmore : Entry.last ([e] ++ next :: rest) = Entry.last (next :: rest) := Entry.last_append_right (by simp)
      have hrec : chainIssues leaves size last room (seen + 1) (some next.id) = .ok [] :=
        ih hc ho (hlast.trans hmore) (by omega) (by omega)
      unfold chainIssues
      rw [if_neg hne, hnext, Entry.first_cons]
      change (linkIssues leaves (some e.id) (some next.id) >>= fun here =>
        chainIssues leaves size last room (seen + 1) (some next.id) >>= fun rest => pure (here ++ rest)) = _
      rw [hlink, hrec]
      rfl

theorem Holds.leafAt_iff {t : Trie} {es : List (Entry V)} (h : t.Holds es) (path : Bytes) (link : Link) :
    t.root.LeafAt path link ↔ ∃ e ∈ es, e.key = path ∧ some e.id = link := by
  rw [h.regular.leafAt_iff, h.path, under_empty, h.listing, Entry.listed, List.mem_map]
  simp only [Prod.mk.injEq]

/-- The leaves of a trie are where the pool has them, under their keys. -/
theorem Holds.placed {t : Trie} {leaves : Pool V} {pre es post : List (Entry V)} (h : t.Holds es)
    (hc : leaves.Chained (pre ++ es ++ post)) : t.root.Placed leaves [] := by
  intro path link hleaf
  -- a leaf on a path is an entry's and has the entry's key
  obtain ⟨e, he, rfl, rfl⟩ := (h.leafAt_iff path link).1 hleaf
  obtain ⟨xs, ys, hall⟩ := List.append_of_mem (List.mem_append_left post (List.mem_append_right pre he))
  rw [hall] at hc
  exact ⟨_, Pool.get_ok (Pool.leaf?_of_mem hc), rfl⟩

/-- **A trie that holds entries has no issues**, if the chain in its pool runs through them, be it with entries of
other tries on either side. -/
theorem Holds.issues_eq {t : Trie} {leaves : Pool V} {pre es post : List (Entry V)} (h : t.Holds es)
    (hc : leaves.Chained (pre ++ es ++ post)) : t.issues leaves = .ok [] := by
  have hnodes : t.root.issues leaves true [] = .ok [] := h.regular.issues_eq (Or.inl rfl) (h.placed hc)
  have hcount : t.root.leafCount = t.size := by
    rw [Node.leafCount_eq, h.listing, h.size, Entry.listed, List.length_map]
  have hchain : t.first ≠ none → chainIssues leaves t.size t.last (t.size - 1) 1 t.first = .ok [] := by
    intro hsome
    have ho := h.ordered
    rw [h.first_eq] at hsome ⊢
    rw [h.size, h.last_eq]
    cases es with
    | nil => exact absurd rfl hsome
    | cons e es =>
        rw [List.append_assoc, List.cons_append] at hc
        rw [Entry.first_cons, List.length_cons]
        exact chainIssues_eq hc ho rfl (by omega) (by omega)
  unfold issues
  rw [if_pos h.path, hnodes, hcount]
  change (if t.first = none ∨ t.last = none then Except.ok ([] ++ [] ++ (if t.size = t.size then [] else _) ++ [])
    else chainIssues leaves t.size t.last (t.size - 1) 1 t.first >>= fun chain =>
      Except.ok ([] ++ [] ++ (if t.size = t.size then [] else _) ++ chain)) = _
  rw [if_pos rfl]
  split
  · rfl
  · rename_i hsome
    rw [hchain fun hnone => hsome (Or.inl hnone)]
    rfl

end Trie

namespace OrderedMap

/-- **A map that holds entries has no issues.** -/
theorem Holds.issues_eq {m : OrderedMap V} {es : List (Entry V)} (h : m.Holds es) : m.issues = .ok [] := by
  have hlive : m.leaves.live = m.size := by rw [h.live, h.size_eq]
  obtain ⟨first, hfirst, -, hprev⟩ := h.first?_eq
  obtain ⟨last, hlast, -, hnext⟩ := h.last?_eq
  unfold issues
  rw [h.trie.issues_eq h.chained_alone, hfirst, hlast]
  change Except.ok (([] : List Trie.Issue).map .inTrie ++ (if first.bind Leaf.prev = none then [] else _) ++
    (if last.bind Leaf.next = none then [] else _) ++ (if m.leaves.live = m.size then [] else _)) = _
  rw [if_pos hprev, if_pos hnext, if_pos hlive]
  rfl

end OrderedMap

end OrderedStore
