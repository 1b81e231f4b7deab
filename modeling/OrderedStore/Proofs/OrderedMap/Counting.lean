import Mathlib.Tactic
import OrderedStore.Proofs.OrderedMap.Sharing
import OrderedStore.Proofs.Trie.Places

/-!
# What the count of unshared pieces comes to

Of a map and an earlier version of it, the pieces that are not shared are counted by comparing the two place by place.
Whatever was done since, the tables that are still shared stay in their places: writes make tables anew where they are,
and a new root goes on top of the old one. So no table is counted that is shared. Nodes do not stay where they are. An
insertion may split a segment and a removal may merge two nodes, and the nodes below go to other labels without being
written. They are counted as well, and the count is that of the new pieces just if there are none of them.
-/

namespace OrderedStore.OrderedMap

open Edit

variable {V : Type} {now mid next : Nat} {s t : OrderedMap V} {versions versions' : List (OrderedMap V)} {i : Nat}

/-- How many pieces of a map are not pieces of an earlier version. -/
def newSince (t s : OrderedMap V) : Nat :=
  newcomers Node.stamp s.trie.root.nodes t.trie.root.nodes + newcomers Tower.stamp s.leaves.tables t.leaves.tables

/-- The count of what a map does not share with an earlier version. -/
structure CountsSince (t s : OrderedMap V) : Prop where
  /-- Of the nodes, those are counted that are new and those that moved. -/
  nodes : t.trie.unsharedWith s.trie =
    newcomers Node.stamp s.trie.root.nodes t.trie.root.nodes + t.trie.root.moved s.trie.root
  /-- A node that moved is a node of the earlier version, at another place. -/
  elsewhere : ∀ path x, (path, x) ∈ t.trie.root.places → x.stamp ∈ s.trie.root.nodes.map Node.stamp →
    Node.NotAt (some s.trie.root) (path, x) → ∃ path', path' ≠ path ∧ s.trie.root.at? path' = some x
  /-- Of the tables, those are counted that are new. -/
  tables : t.leaves.unsharedWith s.leaves = newcomers Tower.stamp s.leaves.tables t.leaves.tables
  /-- The whole count is that of the new pieces just if no node moved. -/
  exact_iff : t.unsharedWith s = t.newSince s ↔ t.trie.root.moved s.trie.root = 0

/-- Versions one of which came about from an earlier version. -/
structure Descends (s : OrderedMap V) (i : Nat) (versions : List (OrderedMap V)) (now : Nat) : Prop where
  represent : AllRepresent versions
  regular : s.trie.root.Regular
  /-- Equal stamps tell what the versions share with the earlier one. -/
  coherent : Coherent Piece.stamp (s.pieces ++ allPieces versions) now
  /-- The tables that are left of the earlier version are in their places. -/
  places : ∃ t, versions[i]? = some t ∧ t.leaves.InPlace (· ∈ s.leaves.tables.map Tower.stamp) s.leaves

theorem Versions.descends (h : Versions versions now) (hi : versions[i]? = some s) : Descends s i versions now where
  represent := h.represent
  regular := by
    obtain ⟨u, -, es, hes, -⟩ := h.represent s (List.mem_of_getElem? hi)
    exact hes.trie.regular
  coherent := by
    refine h.coherent.renewed (Renewed.of_subset (fun x hx => ?_) (Nat.le_refl now))
    rcases List.mem_append.1 hx with hx | hx
    · exact mem_allPieces (List.mem_of_getElem? hi) hx
    · exact hx
  places := ⟨s, hi, Pool.inPlace_self _ s.leaves⟩

theorem Descends.mono (h : Descends s i versions now) (hle : now ≤ next) : Descends s i versions next :=
  ⟨h.represent, h.regular, h.coherent.mono hle, h.places⟩

/-- The stamps of the earlier version were drawn before. -/
theorem Descends.drawn (h : Descends s i versions now) : Drawn (· ∈ s.leaves.tables.map Tower.stamp) now := by
  intro stamp hstamp
  obtain ⟨x, hx, rfl⟩ := List.mem_map.1 hstamp
  exact h.coherent.drawn _ (List.mem_append_left _ (mem_piecesOf_table.2 hx))

/-- **A move keeps what is known of the earlier version.** -/
theorem Descends.moved (h : Descends s i versions now) (hmoved : Moved versions versions' now next)
    (h' : AllRepresent versions') : Descends s i versions' next where
  represent := h'
  regular := h.regular
  coherent := h.coherent.renewed (hmoved.renewed.beside s.pieces)
  places := by
    obtain ⟨t, ht, hplaces⟩ := h.places
    obtain ⟨t', ht', hkeeps⟩ := hmoved.places i t ht
    exact ⟨t', ht', hkeeps _ _ h.drawn hplaces⟩

theorem Descends.movesAmong (h : Descends s i versions now) (steps : List (Nat × Move V)) :
    match (movesAmong versions steps).run now with
    | .ok (versions', next) => Descends s i versions' next
    | .error fault => fault = .poolExhausted :=
  movesAmong_keeps (fun _ _ h => h.represent) (fun _ _ _ h => h.mono) (fun _ _ _ _ h => h.moved) h steps

/-- **What the comparison with the earlier version counts.** -/
theorem Descends.countsSince (h : Descends s i versions now) (ht : versions[i]? = some t) : t.CountsSince s := by
  have hmem := List.mem_of_getElem? ht
  obtain ⟨u, -, es, hes, -⟩ := h.represent t hmem
  have halike : ∀ x ∈ t.trie.root.nodes, ∀ y ∈ s.trie.root.nodes, x.stamp = y.stamp → x = y := by
    intro x hx y hy heq
    have hx' : Piece.node x ∈ s.pieces ++ allPieces versions :=
      List.mem_append_right _ (mem_allPieces hmem (mem_piecesOf_node.2 hx))
    have hy' : Piece.node y ∈ s.pieces ++ allPieces versions := List.mem_append_left _ (mem_piecesOf_node.2 hy)
    exact Piece.node.inj (h.coherent.alike _ hx' _ hy' heq)
  have hnodes := hes.trie.regular.unsharedWith_eq_add halike
  have htables : t.leaves.unsharedWith s.leaves = newcomers Tower.stamp s.leaves.tables t.leaves.tables := by
    obtain ⟨t', ht', hplaces⟩ := h.places
    obtain rfl := Option.some.inj (ht.symm.trans ht')
    exact hplaces.unsharedWith_eq
  refine ⟨hnodes, fun path x hx => h.regular.stands_elsewhere halike hx, htables, ?_⟩
  have hall : t.unsharedWith s = t.newSince s + t.trie.root.moved s.trie.root := by
    rw [unsharedWith, Trie.unsharedWith, hnodes, htables, newSince]
    omega
  omega

/-- **What is counted since an earlier version**, for every version that calls and copies make of a fresh map and
whatever calls and copies come after it: the new tables, the new nodes, and the nodes that moved. The only fault on the
way is a pool without room. -/
theorem history_counts (limit : Nat) (now : Stamp) (steps later : List (Nat × Move V)) :
    match (history limit steps).run now with
    | .error fault => fault = .poolExhausted
    | .ok (versions, mid) =>
      match (movesAmong versions later).run mid with
      | .error fault => fault = .poolExhausted
      | .ok (versions', _) =>
        ∀ (i : Nat) (s t : OrderedMap V), versions[i]? = some s → versions'[i]? = some t → t.CountsSince s := by
  have hcomes := history_comes limit now steps
  cases hrun : (history limit steps).run now with
  | error fault =>
      rw [hrun] at hcomes
      exact hcomes
  | ok result =>
      obtain ⟨versions, mid⟩ := result
      rw [hrun] at hcomes
      dsimp only
      cases hlater : (movesAmong versions later).run mid with
      | error fault =>
          have hends := hcomes.movesAmong later
          rw [hlater] at hends
          exact hends
      | ok result' =>
          intro i s t hs ht
          have hends := (hcomes.descends hs).movesAmong later
          rw [hlater] at hends
          exact hends.countsSince ht

/-- Splitting a segment moves the two nodes below it, which are shared and counted all the same. -/
theorem split_counts_moved :
    ((do
      let versions ← history 8 [(0, .call 0 (.insert [97, 98, 99, 120] 1)), (0, .call 0 (.insert [97, 98, 99, 121] 2))]
      let versions' ← movesAmong versions [(0, .call 0 (.insert [97, 98, 100] 3))]
      return versions[0]?.bind fun s => versions'[0]?.map fun t => (t.unsharedWith s, t.newSince s) :
        Edit (Option (Nat × Nat))).run 0).map Prod.fst = .ok (some (7, 5)) := by decide +kernel

end OrderedStore.OrderedMap
