import Mathlib.Tactic
import OrderedStore.Proofs.Renewal
import OrderedStore.Proofs.Trie.Erase

/-!
# Nodes made anew

A write makes the nodes on the path of its key anew and keeps all others. `Remade` says this of one node: behind its new
edges are nodes that were behind the old ones, and a number of made ones that the rest of the key bounds. The bound
holds because each node on the path takes at least one byte of the key: where a segment is split, the bytes that part
there pay for the three nodes made, and where two nodes are merged, the made one takes the place of one that was made on
the way down.

What is kept is told by counting: whatever nodes one counts, there are no more of them behind the new edges than there
were behind the old ones, apart from those among the made ones.
-/

namespace OrderedStore.Node

open Edit

/-- A node and all nodes below it. -/
def nodes (n : Node) : List Node := n :: n.edges.attach.flatMap fun ⟨e, _⟩ => e.child.nodes
termination_by sizeOf n
decreasing_by exact sizeOf_child_lt (by assumption)

/-- The nodes behind some edges. -/
def behind (edges : List (Edge Node)) : List Node := edges.flatMap fun e => e.child.nodes

theorem nodes_eq (n : Node) : n.nodes = n :: behind n.edges := by
  rw [nodes]
  simp [behind]

@[simp] theorem behind_nil : behind [] = [] := rfl

@[simp] theorem behind_cons (e : Edge Node) (edges : List (Edge Node)) :
    behind (e :: edges) = e.child.nodes ++ behind edges := rfl

@[simp] theorem behind_append (l r : List (Edge Node)) : behind (l ++ r) = behind l ++ behind r := List.flatMap_append

theorem self_mem_nodes (n : Node) : n ∈ n.nodes := by
  rw [nodes_eq]
  exact List.mem_cons_self

/-- A node made anew between two stamps, with no more than `count` made nodes below it. -/
def Remade (n n' : Node) (count now next : Nat) : Prop :=
  ∃ made : List Node, made.length ≤ count ∧ Made stamp (n' :: made) now next ∧
    ∀ p : Node → Bool, (behind n'.edges).countP p ≤ (behind n.edges).countP p + made.countP p

variable {n n' child : Node} {b : UInt8} {bs rest : Bytes} {l r : List (Edge Node)} {e x : Edge Node} {id : LeafId}
  {count now mid next : Nat}

theorem Remade.mono (h : n.Remade n' count now next) {count' : Nat} (hle : count ≤ count') :
    n.Remade n' count' now next := by
  obtain ⟨made, hlen, hmade, hcount⟩ := h
  exact ⟨made, Nat.le_trans hlen hle, hmade, hcount⟩

/-- A node with some of its old edges. -/
theorem remade_of_sublist (hstamp : now = n'.stamp) (hlt : now < next) (h : (behind n'.edges).Sublist (behind n.edges)) :
    n.Remade n' count now next := by
  refine ⟨[], Nat.zero_le _, Made.singleton (by omega), fun p => ?_⟩
  exact Nat.le_add_right_of_le h.countP_le

/-- A node with a made one behind one of its edges. -/
theorem Remade.behind_edge (h : e.child.Remade child count (now + 1) next) (hold : n.edges = l ++ e :: r)
    (hnew : n'.edges = l ++ ⟨b, child⟩ :: r) (hstamp : now = n'.stamp) : n.Remade n' (count + 1) now next := by
  obtain ⟨made, hlen, hmade, hcount⟩ := h
  have hrange := hmade.range child List.mem_cons_self
  refine ⟨child :: made, by simpa using hlen, hmade.cons (Nat.le_succ now) (Nat.le_refl next) (by omega)
    (Or.inl (by omega)), fun p => ?_⟩
  have hp := hcount p
  rw [hold, hnew]
  simp only [behind_append, behind_cons, nodes_eq, List.countP_append, List.countP_cons]
  omega

/-- A node with a made one, and no old one, behind a new edge. -/
theorem remade_with_leaf (hold : n.edges = l ++ r) (hnew : n'.edges = l ++ x :: r) (hstamp : now = n'.stamp)
    (hleaf : x.child.edges = []) (hx : now + 1 = x.child.stamp) : n.Remade n' 1 now (now + 2) := by
  have hmade : Made stamp [x.child] (now + 1) (now + 2) := Made.singleton (by omega)
  refine ⟨[x.child], Nat.le_refl 1, hmade.cons (Nat.le_succ now) (Nat.le_refl _) (by omega) (Or.inl (by omega)),
    fun p => ?_⟩
  rw [hold, hnew]
  simp only [behind_append, behind_cons, nodes_eq, hleaf, behind_nil, List.countP_append, List.countP_cons,
    List.countP_nil]
  omega

/-- **What a remade node consists of**: old nodes and made ones. -/
theorem Remade.renewed (h : n.Remade n' count now next) : Renewed stamp n.nodes n'.nodes now next := by
  classical
  obtain ⟨made, -, hmade, hcount⟩ := h
  have hrange := hmade.range n' List.mem_cons_self
  refine ⟨by omega, n' :: made, hmade, fun x hx => ?_⟩
  rw [nodes_eq, List.mem_cons] at hx
  rw [nodes_eq, List.mem_cons, List.mem_cons]
  rcases hx with rfl | hx
  · exact Or.inr (Or.inl rfl)
  · -- a node that is counted behind the new edges is counted behind the old ones or among the made ones
    have hpos : 0 < (behind n'.edges).countP (· = x) := List.countP_pos_iff.2 ⟨x, hx, by simp⟩
    have hle := hcount (· = x)
    rcases Nat.eq_zero_or_pos ((behind n.edges).countP (· = x)) with hzero | hold
    · obtain ⟨y, hy, hyx⟩ := List.countP_pos_iff.1 (show 0 < made.countP (· = x) by omega)
      exact Or.inr (Or.inr (of_decide_eq_true hyx ▸ hy))
    · obtain ⟨y, hy, hyx⟩ := List.countP_pos_iff.1 hold
      exact Or.inl (Or.inr (of_decide_eq_true hyx ▸ hy))

/-- **How much of it is new**: one node more than the made ones below. -/
theorem Remade.countP_le (h : n.Remade n' count now next) {p : Node → Bool} (hold : ∀ x ∈ n.nodes, p x = false) :
    n'.nodes.countP p ≤ count + 1 := by
  obtain ⟨made, hlen, -, hcount⟩ := h
  have hzero : n.nodes.countP p = 0 := List.countP_eq_zero.2 fun x hx => by simp [hold x hx]
  have hp := hcount p
  have hmade : made.countP p ≤ made.length := List.countP_le_length
  rw [nodes_eq, List.countP_cons] at hzero ⊢
  split <;> omega

/-! ## Putting a leaf in -/

theorem child_of_edgeTo (h : edgeTo child = .ok e) : e.child = child := by
  unfold edgeTo at h
  split at h
  · cases h
  · obtain rfl := Except.ok.inj h
    rfl

theorem edges_of_insertEdge (h : n.insertEdge e = .ok n') :
    n'.stamp = n.stamp ∧ ∃ i, n'.edges = n.edges.insertIdx i e := by
  unfold insertEdge at h
  split at h
  · cases h
  · rename_i i _
    obtain rfl := Except.ok.inj h
    exact ⟨rfl, i, rfl⟩

/-- An edge that is inserted brings what is behind it. -/
theorem countP_insertIdx_le (p : Node → Bool) (edges : List (Edge Node)) (i : Nat) (e : Edge Node) :
    (behind (edges.insertIdx i e)).countP p ≤ (behind edges).countP p + e.child.nodes.countP p := by
  by_cases hi : i ≤ edges.length
  · have hperm := (List.perm_insertIdx e edges hi).flatMap_right fun e => e.child.nodes
    have heq := hperm.countP_eq p
    rw [List.flatMap_cons, List.countP_append] at heq
    unfold behind
    omega
  · rw [List.insertIdx_of_length_lt (by omega)]
    exact Nat.le_add_right _ _

/-- What a node consists of below does not hang on its segment, its leaf and its ends. -/
theorem Remade.congr (h : n.Remade n' count now next) {n'' : Node} (hstamp : n''.stamp = n'.stamp)
    (hedges : n''.edges = n'.edges) : n.Remade n'' count now next := by
  obtain ⟨made, hlen, hmade, hcount⟩ := h
  refine ⟨made, hlen, ⟨fun x hx => ?_, ?_⟩, hedges ▸ hcount⟩
  · rcases List.mem_cons.1 hx with rfl | hx
    · rw [hstamp]
      exact hmade.range n' List.mem_cons_self
    · exact hmade.range x (List.mem_cons_of_mem _ hx)
  · have hdistinct := hmade.distinct
    rw [List.map_cons] at hdistinct ⊢
    rwa [hstamp]

/-- **Splitting a segment** makes a node for the middle, one for the rest of the child and one for the rest of the key, if
there is any. -/
theorem split_remade (hc : RegularEdge ⟨b, child⟩) (hk : rest.head? = some b) :
    (child.split rest id).EnsuresFrom now fun e next => child.Remade e.child rest.length now next := by
  -- the key and the segment have their first byte in common
  have hshared : 1 ≤ Bytes.agreement child.segment rest := by
    obtain ⟨s, hs⟩ := List.head?_eq_some_iff.1 hc.labelled
    obtain ⟨k, rfl⟩ := List.head?_eq_some_iff.1 hk
    rw [show child.segment = b :: s from hs, Bytes.agreement, if_pos rfl]
    omega
  have hle := Bytes.agreement_le_right child.segment rest
  unfold split
  dsimp only
  refine EnsuresFrom.bind_fresh ?_
  generalize htail : ({ child with stamp := now, segment := child.segment.drop _ } : Node) = tail
  have htail' : behind tail.edges = behind child.edges ∧ now = tail.stamp := htail ▸ ⟨rfl, rfl⟩
  refine EnsuresFrom.bind_fresh (EnsuresFrom.bind_lift fun x hx => EnsuresFrom.bind_lift fun fork hfork => ?_)
  have hx := child_of_edgeTo hx
  obtain ⟨hstamp, i, hedges⟩ := edges_of_insertEdge hfork
  replace hstamp : now + 1 = fork.stamp := hstamp.symm
  replace hedges : fork.edges = [].insertIdx i x := hedges
  have hcount : ∀ p, (behind fork.edges).countP p ≤ (behind child.edges).countP p + [tail].countP p := by
    intro p
    have hp := countP_insertIdx_le p [] i x
    rw [behind_nil, List.countP_nil, hx, nodes_eq, List.countP_cons, htail'.1] at hp
    rw [hedges, List.countP_singleton]
    omega
  split
  · -- nothing is left of the key, so the node in the middle takes the leaf
    have hmade : Made stamp [tail] now (now + 1) := Made.singleton (by omega)
    have hnode : child.Remade fork rest.length now (now + 2) :=
      ⟨[tail], by simp; omega, hmade.cons (Nat.le_refl now) (by omega) (by omega) (Or.inr (by omega)), hcount⟩
    refine EnsuresFrom.lift fun e he => hnode.congr ?_ ?_
    · rw [child_of_edgeTo he, refresh]
    · rw [child_of_edgeTo he, refresh]
  · rename_i hrest
    refine EnsuresFrom.bind_fresh (EnsuresFrom.bind_lift fun y hy => EnsuresFrom.bind_lift fun fork' hfork' => ?_)
    have hy := child_of_edgeTo hy
    obtain ⟨hstamp', i', hedges'⟩ := edges_of_insertEdge hfork'
    have hleaf : now + 2 = y.child.stamp := by rw [hy, ofLeaf]
    -- the stamps were drawn for the child, for the middle and for the leaf, in this order
    have hmade : Made stamp [y.child] (now + 2) (now + 3) := Made.singleton (by omega)
    have hmade' : Made stamp [fork', y.child] (now + 1) (now + 3) := by
      have hfork : now + 1 = fork'.stamp := hstamp.trans hstamp'.symm
      exact hmade.cons (Nat.le_succ _) (Nat.le_refl _) (by omega) (Or.inl (by omega))
    have hmade'' : Made stamp [tail, fork', y.child] now (now + 3) :=
      hmade'.cons (Nat.le_succ _) (Nat.le_refl _) (by omega) (Or.inl (by omega))
    have hnode : child.Remade fork' rest.length now (now + 3) := by
      refine ⟨[tail, y.child], by simp; omega, hmade''.perm (List.Perm.swap _ _ _), fun p => ?_⟩
      have hp := countP_insertIdx_le p fork.edges i' y
      have hp' := hcount p
      rw [← hedges', hy, nodes_eq, List.countP_cons, ofLeaf, behind_nil, List.countP_nil] at hp
      rw [List.countP_singleton] at hp'
      rw [List.countP_cons, List.countP_singleton, hy, ofLeaf]
      omega
    refine EnsuresFrom.lift fun e he => hnode.congr ?_ ?_
    · rw [child_of_edgeTo he, refresh]
    · rw [child_of_edgeTo he, refresh]

/-- A segment that is passed takes at least one byte of the key. -/
theorem length_rest_lt (hn : n.Regular) (h : n.Hit b l e r) (hrest : b :: bs = e.child.segment ++ rest) :
    rest.length + 1 ≤ (b :: bs).length := by
  obtain ⟨s, hs⟩ := (hn.edge h.mem).segment_eq
  rw [hrest, hs]
  simp

/-- **Putting a leaf in** makes the nodes on the path anew and at most two beside it. -/
theorem Regular.insert_remade (hn : n.Regular) (key : Bytes) :
    (n.insert key id).EnsuresFrom now fun n' next => n.Remade n' (key.length + 1) now next := by
  induction hn using Regular.induct generalizing key now with
  | step n hn ih =>
      rw [Node.insert]
      refine EnsuresFrom.bind_fresh ?_
      cases key with
      | nil => exact EnsuresFrom.pure (remade_of_sublist rfl (Nat.lt_succ_self now) (List.Sublist.refl _))
      | cons b bs =>
          dsimp only
          rcases hn.hit_or_miss b with ⟨l, e, r, h⟩ | ⟨l, r, h⟩
          · rw [h.spot]
            dsimp only
            split
            · exact EnsuresFrom.throw
            · rename_i e' he'
              obtain rfl := Option.some.inj (h.getElem?.symm.trans he')
              cases hout : Bytes.after? e.child.segment (b :: bs) with
              | some rest =>
                  have hlen := length_rest_lt hn h (Bytes.after?_eq_some_iff.1 hout)
                  refine EnsuresFrom.bind (ih e h.mem rest) fun child mid hchild => ?_
                  refine EnsuresFrom.pure ((hchild.behind_edge (b := e.label) h.edges ?_ rfl).mono (by omega))
                  rw [Node.refresh, h.set]
              | none =>
                  have he := hn.edge h.mem
                  have hlabelled : RegularEdge ⟨b, e.child⟩ := ⟨h.label ▸ he.labelled, he.needed, he.regular⟩
                  refine EnsuresFrom.bind (split_remade hlabelled rfl) fun x mid hx => ?_
                  refine EnsuresFrom.pure (hx.behind_edge (b := x.label) h.edges ?_ rfl)
                  rw [Node.refresh, h.set]
          · rw [h.spot]
            dsimp only
            refine EnsuresFrom.bind_fresh (EnsuresFrom.bind_lift fun x hx => EnsuresFrom.pure ?_)
            have hx := child_of_edgeTo hx
            refine Remade.mono (remade_with_leaf h.edges (x := x) ?_ rfl ?_ ?_) (by simp)
            · rw [Node.refresh, h.edges, insertIdx_middle]
            · rw [hx, ofLeaf]
            · rw [hx, ofLeaf]
              rfl

/-! ## Taking leaves away -/

/-- **After a removal behind an edge** the node made there stays, or goes, or gives way to the node it is merged into. -/
theorem Remade.recompress {c : Node} (h : e.child.Remade c count (now + 1) mid) (hold : n.edges = l ++ e :: r)
    (hnew : n'.edges = l ++ ⟨b, c⟩ :: r) (hstamp : now = n'.stamp) :
    (do
      let n' ← Node.recompress n' l.length
      pure n'.refresh : Edit Node).EnsuresFrom mid fun n' next => n.Remade n' (count + 1) now next := by
  have hat : n'.edges[l.length]? = some ⟨b, c⟩ := by
    rw [hnew, List.getElem?_append_right (Nat.le_refl _), Nat.sub_self, List.getElem?_cons_zero]
  have hstays : n.Remade n'.refresh (count + 1) now mid := h.behind_edge hold hnew hstamp
  obtain ⟨made, hlen, hmade, hcount⟩ := id h
  have hrange := hmade.range c List.mem_cons_self
  unfold Node.recompress
  rw [hat]
  dsimp only
  split
  · exact EnsuresFrom.pure hstays
  · split
    · refine EnsuresFrom.pure (remade_of_sublist hstamp (by omega) ?_)
      rw [refresh, hold, hnew, eraseIdx_middle, behind_append, behind_append, behind_cons]
      exact List.Sublist.append_left (List.sublist_append_right _ _) _
    · rename_i only hedges
      rw [bind_assoc]
      refine EnsuresFrom.bind_fresh ?_
      rw [bind_assoc]
      refine EnsuresFrom.bind_lift fun x hx => EnsuresFrom.pure ?_
      have hx := child_of_edgeTo hx
      have hmerged : mid = x.child.stamp ∧ x.child.edges = only.child.edges := by
        rw [hx]
        exact ⟨rfl, rfl⟩
      -- the merged node is the last one made, in place of the child
      have hmade' : Made stamp (x.child :: made) (now + 1) (mid + 1) :=
        hmade.tail.cons (Nat.le_refl _) (Nat.le_succ mid) (by omega) (Or.inr (by omega))
      have hnode : n.Remade { n' with edges := l ++ x :: r } (count + 1) now (mid + 1) := by
        refine ⟨x.child :: made, by simpa using hlen, hmade'.cons (Nat.le_succ now) (Nat.le_refl _) ?_ (Or.inl ?_),
          fun p => ?_⟩
        · dsimp only
          omega
        · dsimp only
          omega
        · have hp := hcount p
          rw [hedges] at hp
          rw [hold]
          simp only [behind_append, behind_cons, behind_nil, nodes_eq, hmerged.2, List.append_nil, List.countP_append,
            List.countP_cons] at hp ⊢
          omega
      refine hnode.congr rfl ?_
      rw [Node.refresh, hnew, set_middle]
    · exact EnsuresFrom.pure hstays

/-- **Taking a leaf away** makes the nodes on the path anew, and no more than those. -/
theorem Regular.erase_remade (hn : n.Regular) (key : Bytes) :
    (n.erase key).EnsuresFrom now fun n' next => n.Remade n' key.length now next := by
  induction hn using Regular.induct generalizing key now with
  | step n hn ih =>
      -- a node written for nothing has all its old edges
      have same : ∀ {n' : Node}, n'.edges = n.edges → now = n'.stamp → n.Remade n' key.length now (now + 1) :=
        fun hedges hstamp => remade_of_sublist hstamp (Nat.lt_succ_self now) (hedges ▸ List.Sublist.refl _)
      rw [Node.erase]
      refine EnsuresFrom.bind_fresh ?_
      cases key with
      | nil => exact EnsuresFrom.pure (same rfl rfl)
      | cons b bs =>
          dsimp only
          rcases hn.hit_or_miss b with ⟨l, e, r, h⟩ | ⟨l, r, h⟩
          · rw [h.spot]
            dsimp only
            split
            · exact EnsuresFrom.throw
            · rename_i e' he'
              obtain rfl := Option.some.inj (h.getElem?.symm.trans he')
              cases hout : Bytes.after? e.child.segment (b :: bs) with
              | none => exact EnsuresFrom.pure (same rfl rfl)
              | some rest =>
                  have hlen := length_rest_lt hn h (Bytes.after?_eq_some_iff.1 hout)
                  refine EnsuresFrom.bind (ih e h.mem rest) fun child mid hchild => ?_
                  refine (hchild.recompress h.edges (b := e.label) (h.set _) rfl).mono fun n' next hn' => ?_
                  exact hn'.mono hlen
          · rw [h.spot]
            exact EnsuresFrom.pure (same rfl rfl)

/-- **Taking away what starts with some bytes** makes the nodes on the path to the stretch anew. -/
theorem Regular.eraseUnder_remade (hn : n.Regular) (start : Bytes) :
    (n.eraseUnder start).EnsuresFrom now fun n' next => n.Remade n' start.length now next := by
  induction hn using Regular.induct generalizing start now with
  | step n hn ih =>
      have some_of : ∀ {n' : Node}, n'.edges.Sublist n.edges → now = n'.stamp →
          n.Remade n' start.length now (now + 1) := fun hedges hstamp =>
        remade_of_sublist hstamp (Nat.lt_succ_self now) (hedges.flatMap _)
      rw [Node.eraseUnder]
      refine EnsuresFrom.bind_fresh ?_
      cases start with
      | nil => exact EnsuresFrom.pure (some_of (List.nil_sublist _) rfl)
      | cons b bs =>
          dsimp only
          rcases hn.hit_or_miss b with ⟨l, e, r, h⟩ | ⟨l, r, h⟩
          · rw [h.spot]
            dsimp only
            split
            · exact EnsuresFrom.throw
            · rename_i e' he'
              obtain rfl := Option.some.inj (h.getElem?.symm.trans he')
              split
              · exact EnsuresFrom.pure (some_of (List.eraseIdx_sublist _ _) rfl)
              · refine EnsuresFrom.bind (ih e h.mem _) fun child mid hchild => ?_
                refine (hchild.recompress h.edges (b := e.label) (h.set _) rfl).mono fun n' next hn' => ?_
                refine hn'.mono ?_
                obtain ⟨s, hs⟩ := (hn.edge h.mem).segment_eq
                rw [List.length_drop, hs]
                simp
          · rw [h.spot]
            exact EnsuresFrom.pure (some_of (List.Sublist.refl _) rfl)

end OrderedStore.Node
