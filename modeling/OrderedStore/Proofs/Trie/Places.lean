import Mathlib.Tactic
import OrderedStore.Proofs.Trie.Renewal
import OrderedStore.Proofs.Trie.Shape
import OrderedStore.Trie.Sharing

/-!
# Nodes by their places

Versions of a trie are compared place by place, and the place of a node is told by the labels on the way to it. As long
as equal stamps mean equal nodes, the comparison counts the nodes that the earlier version does not have at the same
place. Those are the nodes that are new, and beside them the nodes that are shared but have *moved*: where a segment was
split or two nodes were merged, the nodes below are as they were, and still other labels lead to them.
-/

namespace OrderedStore.Node

variable {n m x : Node} {e : Edge Node} {b : UInt8} {path : Bytes} {earlier : Option Node}

/-! ## Places -/

/-- The node that some labels lead to. -/
def at? (n : Node) : Bytes → Option Node
  | [] => some n
  | b :: path => (n.child? b).bind (·.at? path)

/-- A node and all nodes below it, each with the labels that lead to it. -/
def places (n : Node) : List (Bytes × Node) :=
  ([], n) :: n.edges.attach.flatMap fun ⟨e, _⟩ => e.child.places.map fun x => (e.label :: x.1, x.2)
termination_by sizeOf n
decreasing_by exact sizeOf_child_lt (by assumption)

/-- The places behind an edge. -/
def placesBehind (e : Edge Node) : List (Bytes × Node) := e.child.places.map fun x => (e.label :: x.1, x.2)

theorem places_eq (n : Node) : n.places = ([], n) :: n.edges.flatMap placesBehind := by
  rw [places]
  simp only [List.flatMap_subtype, List.unattach_attach]
  rfl

theorem map_places (n : Node) : n.places.map Prod.snd = n.nodes := by
  induction n using places.induct with
  | case1 n ih =>
      have hbehind : n.edges.flatMap (fun e => (placesBehind e).map Prod.snd) = behind n.edges := by
        refine List.flatMap_congr fun e he => ?_
        rw [placesBehind, List.map_map]
        exact ih e he
      rw [places_eq, nodes_eq, List.map_cons, List.map_flatMap, hbehind]

theorem Regular.child?_of_mem (hn : n.Regular) (he : e ∈ n.edges) : n.child? e.label = some e.child := by
  rcases hn.hit_or_miss e.label with ⟨l, e', r, h⟩ | ⟨l, r, h⟩
  · rw [h.child?, hn.ascending.label_inj h.mem he h.label]
  · rw [h.edges, List.mem_append] at he
    rcases he with hl | hr
    · exact absurd (h.left e hl) (UInt8.lt_irrefl _)
    · exact absurd (h.right e hr) (UInt8.lt_irrefl _)

/-- **A place leads to the node that is there.** -/
theorem Regular.at?_of_mem (hn : n.Regular) (h : (path, x) ∈ n.places) : n.at? path = some x := by
  induction hn using Regular.induct generalizing path with
  | step n hn ih =>
      rw [places_eq, List.mem_cons] at h
      rcases h with h | h
      · obtain ⟨rfl, rfl⟩ := Prod.mk.inj h
        rfl
      · obtain ⟨e, he, h⟩ := List.mem_flatMap.1 h
        obtain ⟨⟨rest, y⟩, hy, heq⟩ := List.mem_map.1 h
        obtain ⟨rfl, rfl⟩ := Prod.mk.inj heq
        rw [at?, hn.child?_of_mem he, Option.bind_some]
        exact ih e he hy

theorem exists_place (hx : x ∈ n.nodes) : ∃ path, (path, x) ∈ n.places := by
  rw [← map_places] at hx
  obtain ⟨⟨path, y⟩, hy, rfl⟩ := List.mem_map.1 hx
  exact ⟨path, hy⟩

theorem mem_nodes_of_place (h : (path, x) ∈ n.places) : x ∈ n.nodes := by
  rw [← map_places]
  exact List.mem_map_of_mem h

theorem mem_nodes_of_child? (hc : n.child? b = some m) (hx : x ∈ m.nodes) : x ∈ n.nodes := by
  obtain ⟨e, he, rfl⟩ : ∃ e ∈ n.edges, e.child = m := by
    unfold child? Edge.child? at hc
    split at hc
    · obtain ⟨e, he, rfl⟩ := Option.map_eq_some_iff.1 hc
      exact ⟨e, List.mem_of_getElem? he, rfl⟩
    · cases hc
  rw [nodes_eq, List.mem_cons]
  exact Or.inr (List.mem_flatMap.2 ⟨e, he, hx⟩)

theorem mem_nodes_of_at? (h : n.at? path = some x) : x ∈ n.nodes := by
  induction path generalizing n with
  | nil =>
      obtain rfl := Option.some.inj h
      exact self_mem_nodes n
  | cons b path ih =>
      obtain ⟨c, hc, hx⟩ := Option.bind_eq_some_iff.1 h
      exact mem_nodes_of_child? hc (ih hx)

/-! ## Comparing place by place -/

/-- An earlier version does not have the node at its place. -/
def NotAt (earlier : Option Node) (x : Bytes × Node) : Prop := (earlier.bind (·.at? x.1)).map stamp ≠ some x.2.stamp

instance : DecidablePred (NotAt earlier) := fun x => inferInstanceAs (Decidable (_ ≠ some x.2.stamp))

theorem notAt_nil (earlier : Option Node) (n : Node) :
    NotAt earlier ([], n) ↔ earlier.map stamp ≠ some n.stamp := by
  cases earlier with
  | none => rfl
  | some m => rfl

theorem notAt_cons (earlier : Option Node) (b : UInt8) (path : Bytes) (x : Node) :
    NotAt earlier (b :: path, x) ↔ NotAt (earlier.bind (·.child? b)) (path, x) := by
  rw [NotAt, NotAt, Option.bind_assoc]
  rfl

/-- A node has each of its nodes at its place. -/
theorem Regular.countP_self (hn : n.Regular) : (n.places.countP fun x => NotAt (some n) x) = 0 := by
  refine List.countP_eq_zero.2 fun x hx hnot => ?_
  refine of_decide_eq_true hnot ?_
  rw [Option.bind_some, hn.at?_of_mem hx, Option.map_some]

theorem countP_placesBehind (earlier : Option Node) (e : Edge Node) :
    ((placesBehind e).countP fun x => NotAt earlier x) =
      e.child.places.countP fun x => NotAt (earlier.bind (·.child? e.label)) x := by
  rw [placesBehind, List.countP_map]
  refine List.countP_congr fun x _ => ?_
  rw [Function.comp_apply, decide_eq_true_iff, decide_eq_true_iff, notAt_cons]

theorem unsharedWith_eq (n : Node) (earlier : Option Node) : n.unsharedWith earlier =
    if earlier.map stamp = some n.stamp then 0
    else 1 + (n.edges.map fun e => e.child.unsharedWith (earlier.bind (·.child? e.label))).sum := by
  rw [unsharedWith, ← List.sum_eq_foldr]
  conv_rhs => rw [← List.attach_map_subtype_val n.edges, List.map_map]
  rfl

/-- **The comparison counts the places where the earlier version has another node**, if stamps tell which nodes are the
same. -/
theorem Regular.unsharedWith_eq_countP (hn : n.Regular)
    (halike : ∀ m, earlier = some m → ∀ x ∈ n.nodes, ∀ y ∈ m.nodes, x.stamp = y.stamp → x = y) :
    n.unsharedWith earlier = n.places.countP fun x => NotAt earlier x := by
  induction hn using Regular.induct generalizing earlier with
  | step n hn ih =>
      rw [unsharedWith_eq]
      by_cases hstamp : earlier.map stamp = some n.stamp
      · -- it is the same node, and so is every node below it
        obtain ⟨m, rfl, hm⟩ := Option.map_eq_some_iff.1 hstamp
        obtain rfl := halike m rfl n (self_mem_nodes n) m (self_mem_nodes m) hm.symm
        rw [if_pos hstamp, hn.countP_self]
      · have hbehind : ∀ e ∈ n.edges, e.child.unsharedWith (earlier.bind (·.child? e.label)) =
            (placesBehind e).countP fun x => NotAt earlier x := by
          intro e he
          rw [countP_placesBehind]
          refine ih e he fun c hc x hx y hy => ?_
          obtain ⟨m, rfl, hc⟩ := Option.bind_eq_some_iff.1 hc
          refine halike m rfl x ?_ y (mem_nodes_of_child? hc hy)
          exact mem_nodes_of_child? (hn.child?_of_mem he) hx
        have hself := decide_eq_true ((notAt_nil earlier n).2 hstamp)
        rw [if_neg hstamp, List.map_congr_left hbehind, places_eq, List.countP_cons, List.countP_flatMap, if_pos hself,
          Nat.add_comm]
        rfl

/-! ## Nodes that moved -/

/-- How many of the nodes are shared with an earlier version that does not have them at their places. -/
def moved (n earlier : Node) : Nat :=
  n.places.countP fun x => x.2.stamp ∈ earlier.nodes.map stamp ∧ NotAt (some earlier) x

/-- **The comparison counts the new nodes and those that moved.** -/
theorem Regular.unsharedWith_eq_add (hn : n.Regular)
    (halike : ∀ x ∈ n.nodes, ∀ y ∈ m.nodes, x.stamp = y.stamp → x = y) :
    n.unsharedWith (some m) = newcomers stamp m.nodes n.nodes + n.moved m := by
  -- a node that is new is not at its place in the earlier version, which has it nowhere
  have hnew : ∀ x : Bytes × Node, x.2.stamp ∉ m.nodes.map stamp → NotAt (some m) x := by
    intro x hx hat
    obtain ⟨y, hy, hstamp⟩ := Option.map_eq_some_iff.1 hat
    exact hx (hstamp ▸ List.mem_map_of_mem (mem_nodes_of_at? hy))
  rw [hn.unsharedWith_eq_countP fun m' hm' => Option.some.inj hm' ▸ halike, newcomers, ← map_places n, List.countP_map,
    moved, List.countP_eq_countP_filter_add n.places _ fun x => x.2.stamp ∉ m.nodes.map stamp, List.countP_filter,
    List.countP_filter]
  refine congrArg₂ (· + ·) (List.countP_congr fun x _ => ?_) (List.countP_congr fun x _ => ?_)
  · rw [Bool.and_eq_true, decide_eq_true_iff, Function.comp_apply, decide_eq_true_iff]
    exact ⟨fun h => h.2, fun h => ⟨hnew x h, h⟩⟩
  · rw [Bool.and_eq_true, Bool.not_eq_true', decide_eq_true_iff, decide_eq_false_iff_not, not_not, decide_eq_true_iff]
    exact and_comm

/-- **A node that moved** is a node of the earlier version, where it stands at another place. -/
theorem Regular.stands_elsewhere (hm : m.Regular)
    (halike : ∀ x ∈ n.nodes, ∀ y ∈ m.nodes, x.stamp = y.stamp → x = y) (hx : (path, x) ∈ n.places)
    (hshared : x.stamp ∈ m.nodes.map stamp) (hnot : NotAt (some m) (path, x)) :
    ∃ path', path' ≠ path ∧ m.at? path' = some x := by
  obtain ⟨y, hy, hstamp⟩ := List.mem_map.1 hshared
  obtain rfl := halike x (mem_nodes_of_place hx) y hy hstamp.symm
  obtain ⟨path', hpath'⟩ := exists_place hy
  have hat := hm.at?_of_mem hpath'
  refine ⟨path', ?_, hat⟩
  rintro rfl
  refine hnot ?_
  rw [Option.bind_some, hat, Option.map_some]

end OrderedStore.Node
