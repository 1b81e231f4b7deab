import Mathlib.Tactic
import OrderedStore.Proofs.Acts
import OrderedStore.Proofs.OrderedMap.Renewal
import OrderedStore.Proofs.OrderedMap.Versions

/-!
# What versions of a map share

A write makes anew what lies on the path of its key, in the trie and in the tables of the pool, and everything else of
the new version is shared with the old one. Two things follow. Whatever was written to whichever version, pieces with
one stamp are one piece, so that the stamps tell what two versions share. And a write to one key makes no more nodes
than the key has bytes and two more, and no more tables than lie on the paths of three slots, however much the map
holds.
-/

namespace OrderedStore

open Edit

variable {V : Type} {now count slots : Nat} {n n' : Node} {p p' : Pool V}

namespace OrderedMap

variable {m : OrderedMap V} {es : List (Entry V)}

/-! ## Versions -/

/-- The pieces of all versions. -/
def allPieces (versions : List (OrderedMap V)) : List (Piece V) := versions.flatMap pieces

/-- Versions of a map, of which equal stamps tell what they share. -/
structure Versions (versions : List (OrderedMap V)) (now : Nat) : Prop where
  represent : AllRepresent versions
  coherent : Coherent Piece.stamp (allPieces versions) now

theorem mem_allPieces {versions : List (OrderedMap V)} (hm : m ∈ versions) {x : Piece V} (hx : x ∈ m.pieces) :
    x ∈ allPieces versions := List.mem_flatMap.2 ⟨m, hm, hx⟩

/-- What a move leaves: old pieces and made ones, and every version where it was, with its old tables in their
places. -/
structure Moved (versions versions' : List (OrderedMap V)) (now next : Nat) : Prop where
  renewed : Renewed Piece.stamp (allPieces versions) (allPieces versions') now next
  places : ∀ (i : Nat) (m : OrderedMap V), versions[i]? = some m →
    ∃ m', versions'[i]? = some m' ∧ m.leaves.KeepsPlaces m'.leaves now

/-- Copies are made of pieces that are there, and stand after the versions. -/
theorem moved_of_append {versions copies : List (OrderedMap V)} (h : copies ⊆ versions) :
    Moved versions (versions ++ copies) now now where
  renewed := by
    refine Renewed.of_subset (fun x hx => ?_) (Nat.le_refl now)
    obtain ⟨m, hm, hx⟩ := List.mem_flatMap.1 hx
    rcases List.mem_append.1 hm with hm | hm
    · exact mem_allPieces hm hx
    · exact mem_allPieces (h hm) hx
  places := by
    intro i m hi
    refine ⟨m, ?_, Pool.KeepsPlaces.refl _ _⟩
    rwa [List.getElem?_append_left (List.getElem?_eq_some_iff.1 hi).1]

/-- A version gives way to one that was built from it. -/
theorem moved_of_set {versions : List (OrderedMap V)} {i : Nat} {m m' : OrderedMap V} {next : Nat}
    (hi : versions[i]? = some m) (h : m'.BuiltFrom m now next) : Moved versions (versions.set i m') now next where
  renewed := by
    refine h.renewed.frame (f := id) (fun _ => rfl) ?_ fun x hx => ?_
    · rw [List.map_id]
      exact fun x hx => mem_allPieces (List.mem_of_getElem? hi) hx
    · rw [List.map_id]
      obtain ⟨m'', hm'', hx⟩ := List.mem_flatMap.1 hx
      rcases List.mem_or_eq_of_mem_set hm'' with hold | hnew
      · exact Or.inl (mem_allPieces hold hx)
      · exact Or.inr (hnew ▸ hx)
  places := by
    intro j x hj
    by_cases hij : i = j
    · subst hij
      obtain rfl := Option.some.inj (hi.symm.trans hj)
      have hlt := (List.getElem?_eq_some_iff.1 hi).1
      exact ⟨m', List.getElem?_set_self hlt, h.places⟩
    · exact ⟨x, (List.getElem?_set_ne hij).trans hj, Pool.KeepsPlaces.refl _ _⟩

theorem AllRepresent.moved {versions : List (OrderedMap V)} (h : AllRepresent versions) (step : Move V) :
    (OrderedMap.move versions step).EnsuresFrom now fun versions' next => Moved versions versions' now next := by
  cases step with
  | copy i =>
      refine EnsuresFrom.pure (moved_of_append fun m hm => ?_)
      exact List.mem_of_getElem? (Option.mem_toList.1 hm)
  | call i call =>
      unfold OrderedMap.move
      dsimp only
      cases hi : versions[i]? with
      | none =>
          refine EnsuresFrom.pure ?_
          have hsame : Moved versions (versions ++ []) now now := moved_of_append (List.nil_subset versions)
          rwa [List.append_nil] at hsame
      | some m =>
          obtain ⟨s, -, es, hes, -⟩ := h m (List.mem_of_getElem? hi)
          exact (perform_rebuilt hes call).bind fun r next hr => EnsuresFrom.pure (moved_of_set hi hr)

theorem Versions.moved {versions versions' : List (OrderedMap V)} {next : Nat} (h : Versions versions now)
    (hmoved : Moved versions versions' now next) (h' : AllRepresent versions') : Versions versions' next :=
  ⟨h', h.coherent.renewed hmoved.renewed⟩

/-- Make moves one after the other. Before each of them some stamps are drawn for other structures. -/
def movesAmong (versions : List (OrderedMap V)) : List (Nat × Move V) → Edit (List (OrderedMap V))
  | [] => return versions
  | (elsewhere, step) :: steps => do
    let _ ← Edit.draw elsewhere
    movesAmong (← move versions step) steps

/-- The versions that moves make of a fresh map. -/
def history (limit : Nat) (steps : List (Nat × Move V)) : Edit (List (OrderedMap V)) := do
  movesAmong [empty V (← Edit.fresh) limit] steps

/-- **What every move keeps is true after any number of moves.** The only fault on the way is a pool without room. -/
theorem movesAmong_keeps {P : List (OrderedMap V) → Nat → Prop} {versions : List (OrderedMap V)}
    (hrepresent : ∀ versions now, P versions now → AllRepresent versions)
    (hlater : ∀ versions now next, P versions now → now ≤ next → P versions next)
    (hmoved : ∀ versions versions' now next, P versions now → Moved versions versions' now next →
      AllRepresent versions' → P versions' next)
    (h : P versions now) (steps : List (Nat × Move V)) :
    match (movesAmong versions steps).run now with
    | .ok (versions', next) => P versions' next
    | .error fault => fault = .poolExhausted := by
  induction steps generalizing versions now with
  | nil => exact h
  | cons x steps ih =>
      obtain ⟨elsewhere, step⟩ := x
      have hnow : P versions (now + elsewhere) := hlater _ _ _ h (Nat.le_add_right now elsewhere)
      have hends := (hrepresent _ _ hnow).move step (now + elsewhere)
      rw [show (movesAmong versions ((elsewhere, step) :: steps)).run now =
        (move versions step >>= fun versions' => movesAmong versions' steps).run (now + elsewhere) from rfl]
      cases hrun : (move versions step).run (now + elsewhere) with
      | error fault =>
          rw [hrun] at hends
          rw [run_bind_error hrun]
          exact hends
      | ok result =>
          rw [hrun] at hends
          rw [run_bind_ok hrun]
          have hstep := (hrepresent _ _ hnow).moved step result.1 result.2 hrun
          exact ih (hmoved _ _ _ _ hnow hstep hends)

theorem Versions.movesAmong {versions : List (OrderedMap V)} (h : Versions versions now) (steps : List (Nat × Move V)) :
    match (movesAmong versions steps).run now with
    | .ok (versions', next) => Versions versions' next
    | .error fault => fault = .poolExhausted :=
  movesAmong_keeps (fun _ _ h => h.represent) (fun _ _ _ h hle => ⟨h.represent, h.coherent.mono hle⟩)
    (fun _ _ _ _ h => h.moved) h steps

theorem versions_fresh (limit : Nat) : Versions [empty V now limit] (now + 1) where
  represent := by
    intro m hm
    rw [List.mem_singleton.1 hm]
    exact ⟨_, represents_empty now limit⟩
  coherent := by
    have hpieces : allPieces [empty V now limit] = [.node (Node.bare now [])] := by
      simp [allPieces, pieces, piecesOf, empty, Trie.empty, Node.nodes_eq, Pool.tables, Node.bare]
    rw [hpieces]
    refine ⟨fun x hx => ?_, fun x hx y hy _ => ?_⟩
    · rw [List.mem_singleton.1 hx]
      exact Nat.lt_succ_self now
    · rw [List.mem_singleton.1 hx, List.mem_singleton.1 hy]

/-- What a history comes to. -/
theorem history_comes (limit : Nat) (now : Stamp) (steps : List (Nat × Move V)) :
    match (history limit steps).run now with
    | .ok (versions, next) => Versions versions next
    | .error fault => fault = .poolExhausted := (versions_fresh limit).movesAmong steps

/-! ## What stamps tell -/

/-- Nodes that are counted as shared are the same at the root. -/
theorem root_eq_of_unsharedWith (h : n.unsharedWith (some n') = 0) : n'.stamp = n.stamp := by
  rw [Node.unsharedWith] at h
  split at h
  · rename_i hstamp
    exact Option.some.inj hstamp
  · omega

/-- Tables that are counted as shared are the same at the root. -/
theorem table_eq_of_unsharedWith {h lift : Nat} {t : Table V h} {earlier : Option (Tower V)}
    (hzero : t.unsharedWith earlier lift = 0) : earlier.map (·.table.stamp) = some t.stamp := by
  cases h with
  | zero =>
      unfold Table.unsharedWith at hzero
      split at hzero
      · rename_i hshared
        exact hshared.2
      · omega
  | succ h =>
      unfold Table.unsharedWith at hzero
      split at hzero
      · rename_i hshared
        exact hshared.2
      · dsimp only at hzero
        omega

/-- Pools of which nothing is counted as unshared hold the same leaves, unless the first has no table at all. -/
theorem leaf?_eq_of_unsharedWith (halike : ∀ x ∈ p.tables, ∀ y ∈ p'.tables, x.stamp = y.stamp → x = y)
    (hzero : p.unsharedWith p' = 0) : p.root = none ∨ p'.leaf? = p.leaf? := by
  unfold Pool.unsharedWith at hzero
  split at hzero
  · rename_i hnone
    exact Or.inl hnone
  · rename_i t hroot
    obtain ⟨t', hroot', hstamp⟩ := Option.map_eq_some_iff.1 (table_eq_of_unsharedWith hzero)
    have hself : ∀ {p : Pool V} {t : Tower V}, p.root = some t → t ∈ p.tables := by
      intro p t hroot
      rw [Pool.tables, hroot, Option.elim_some, Table.tables_eq]
      exact List.mem_cons_self
    obtain rfl := halike t (hself hroot) t' (hself hroot') hstamp.symm
    refine Or.inr (funext fun id => ?_)
    rw [Pool.leaf?, Pool.leaf?, Pool.slot?_root hroot, Pool.slot?_root hroot']

/-- The entries of a map are read off the listing of its trie. -/
theorem Holds.items_eq (h : m.Holds es) :
    m.trie.root.listing.map (fun x => (x.2.bind m.leaves.leaf?).map Leaf.item) = (es.map Entry.item).map some := by
  rw [h.trie.listing, Entry.listed, List.map_map, List.map_map]
  refine List.map_congr_left fun e he => ?_
  obtain ⟨xs, ys, rfl⟩ := List.append_of_mem he
  rw [Function.comp_apply, Option.bind_some, Pool.leaf?_of_mem h.chained]
  rfl

/-- Two maps with one trie and with the same leaves in it have the same entries. -/
theorem Holds.items_unique {m' : OrderedMap V} {es' : List (Entry V)} (h : m.Holds es) (h' : m'.Holds es')
    (hroot : m'.trie.root = m.trie.root) (hleaf : es = [] ∨ m'.leaves.leaf? = m.leaves.leaf?) :
    es.map Entry.item = es'.map Entry.item := by
  rcases hleaf with rfl | hleaf
  · have hnil := h'.trie.listing
    rw [hroot, h.trie.listing] at hnil
    rw [List.map_eq_nil_iff.1 hnil.symm]
  · have hitems := h'.items_eq
    rw [hroot, hleaf, h.items_eq] at hitems
    exact List.map_injective_iff.2 (Option.some_injective _) hitems

theorem Holds.walk_toList (h : m.Holds es) :
    ∃ leaves, m.walk.toList = .ok leaves ∧ leaves.map Leaf.item = es.map Entry.item := h.walk_reads.toList

/-- Two versions of which stamps tell what they share. -/
structure SharesWith (m m' : OrderedMap V) : Prop where
  /-- Nodes with one stamp are one node, with all that is below them. -/
  nodes : ∀ x ∈ m.trie.root.nodes, ∀ y ∈ m'.trie.root.nodes, x.stamp = y.stamp → x = y
  /-- Tables with one stamp are one table, with all that is below them. -/
  tables : ∀ x ∈ m.leaves.tables, ∀ y ∈ m'.leaves.tables, x.stamp = y.stamp → x = y
  /-- Versions between which nothing is counted as unshared have the same entries in the same order. -/
  unshared : m.unsharedWith m' = 0 → ∃ leaves leaves', m.walk.toList = .ok leaves ∧ m'.walk.toList = .ok leaves' ∧
    leaves.map Leaf.item = leaves'.map Leaf.item

theorem Versions.sharesWith {versions : List (OrderedMap V)} {m' : OrderedMap V} (h : Versions versions now)
    (hm : m ∈ versions) (hm' : m' ∈ versions) : m.SharesWith m' := by
  have hnodes : ∀ x ∈ m.trie.root.nodes, ∀ y ∈ m'.trie.root.nodes, x.stamp = y.stamp → x = y := by
    intro x hx y hy heq
    have halike := h.coherent.alike _ (mem_allPieces hm (mem_piecesOf_node.2 hx)) _
      (mem_allPieces hm' (mem_piecesOf_node.2 hy)) heq
    exact Piece.node.inj halike
  have htables : ∀ x ∈ m.leaves.tables, ∀ y ∈ m'.leaves.tables, x.stamp = y.stamp → x = y := by
    intro x hx y hy heq
    have halike := h.coherent.alike _ (mem_allPieces hm (mem_piecesOf_table.2 hx)) _
      (mem_allPieces hm' (mem_piecesOf_table.2 hy)) heq
    exact Piece.table.inj halike
  refine ⟨hnodes, htables, fun hzero => ?_⟩
  obtain ⟨s, -, es, hes, -⟩ := h.represent m hm
  obtain ⟨s', -, es', hes', -⟩ := h.represent m' hm'
  obtain ⟨htrie, hpool⟩ := Nat.add_eq_zero_iff.1 hzero
  have hroot : m'.trie.root = m.trie.root :=
    hnodes _ (Node.self_mem_nodes _) _ (Node.self_mem_nodes _) (root_eq_of_unsharedWith htrie).symm |>.symm
  have hitems : es.map Entry.item = es'.map Entry.item := by
    refine hes.items_unique hes' hroot ((leaf?_eq_of_unsharedWith htables hpool).imp (fun hnone => ?_) id)
    -- a pool without tables has no leaf to chain
    refine List.eq_nil_iff_forall_not_mem.2 fun e he => ?_
    have hlive := hes.chained.strand.isSome e.id (List.mem_map_of_mem he)
    rw [Pool.leaf?, Pool.slot?_none hnone] at hlive
    simp at hlive
  obtain ⟨leaves, hleaves, heq⟩ := hes.walk_toList
  obtain ⟨leaves', hleaves', heq'⟩ := hes'.walk_toList
  exact ⟨leaves, leaves', hleaves, hleaves', by rw [heq, heq', hitems]⟩

/-- **Stamps tell what versions share**, for every run of calls and copies that starts from a fresh map: of any two
versions, pieces with one stamp are one piece, and if none is unshared, the versions have the same entries. The only
fault on the way is a pool without room. -/
theorem history_shares (limit : Nat) (now : Stamp) (steps : List (Nat × Move V)) :
    match (history limit steps).run now with
    | .ok (versions, _) => ∀ m ∈ versions, ∀ m' ∈ versions, m.SharesWith m'
    | .error fault => fault = .poolExhausted := by
  have hcomes := history_comes limit now steps
  cases hrun : (history limit steps).run now with
  | error fault =>
      rw [hrun] at hcomes
      exact hcomes
  | ok result =>
      rw [hrun] at hcomes
      exact fun m hm m' hm' => hcomes.sharesWith hm hm'

/-! ## What a write makes anew -/

/-- Of a map that was written, only so many nodes are new, and only the tables on the paths of so many slots. -/
structure CopiesTo (m m' : OrderedMap V) (count slots : Nat) : Prop where
  nodes : newcomers Node.stamp m.trie.root.nodes m'.trie.root.nodes ≤ count
  tables : newcomers Tower.stamp m.leaves.tables m'.leaves.tables ≤ slots * (m'.leaves.height + 1)

theorem Writes.copiesTo {call : Call V} (h : m.Writes call count slots now) {count' : Nat} (hle : count ≤ count') :
    (m.perform call).EnsuresFrom now fun r _ => m.CopiesTo r.2 count' slots :=
  h.mono fun _ _ hr => ⟨hr.nodes.trans hle, hr.tables⟩

/-- An insertion that finds the pool full is one of a new key. -/
theorem Represents.insert_comes {limit : Nat} {s : FiniteMap V} (h : Represents limit m s) (key : Bytes) (value : V) :
    (m.perform (.insert key value)).Comes now (m.contains key = false ∧ Pool.slotLimit ≤ m.size)
      fun r => ∃ s, Represents limit r.2 s := by
  refine (h.meets (.insert key value)).comes ?_ now
  rw [FiniteMap.answer]
  split
  · exact ExhaustedOnly.ok
  · split
    · rename_i hfull
      refine ExhaustedOnly.error ⟨?_, h.agrees.size ▸ hfull.2⟩
      rw [h.agrees.contains]
      cases hvalue : s.value key with
      | none => rfl
      | some value => exact absurd (s.mem_of_value hvalue) hfull.1
    · exact ExhaustedOnly.ok

/-- **A write makes its path anew and no more**, in every version that calls and copies make of a fresh map: nodes for
the bytes of its key and two more, and the tables on the paths of three slots. A write to a value that is there makes
no node, and the tables on the path of its own slot. -/
theorem writes_copy_paths (limit : Nat) (now : Stamp) (steps : List (Nat × Move V)) :
    match (history limit steps).run now with
    | .ok (versions, _) => ∀ m ∈ versions, ∀ key : Bytes,
        (∀ value later, (m.perform (.insert key value)).Comes later (m.contains key = false ∧ Pool.slotLimit ≤ m.size)
          fun r => m.CopiesTo r.2 (key.length + 2) 3 ∧ (m.contains key = true → m.CopiesTo r.2 0 1)) ∧
        ((m.perform (.erase key)).Yields fun r => m.CopiesTo r.2 (key.length + 2) 3) ∧
        ∀ f, (m.perform (.modify key f)).Yields fun r => m.CopiesTo r.2 0 1
    | .error fault => fault = .poolExhausted := by
  have hcomes := history_comes limit now steps
  cases hrun : (history limit steps).run now with
  | error fault =>
      rw [hrun] at hcomes
      exact hcomes
  | ok result =>
      rw [hrun] at hcomes
      intro m hm key
      obtain ⟨s, hs⟩ := hcomes.represent m hm
      obtain ⟨-, es, hes, -⟩ := id hs
      refine ⟨fun value later => ?_, ?_, fun f => ?_⟩
      · refine (hs.insert_comes key value).ensuring fun r next hr => ⟨?_, fun hold => ?_⟩
        · exact (writes_of_insert (Trie.insert_copied hes.trie.regular key value)).copiesTo (Nat.le_refl _) r next hr
        · exact (writes_of_insert (Trie.insert_old_copied hold value)).copiesTo (Nat.le_refl _) r next hr
      · have hyields : (m.perform (.erase key)).Yields _ := hs.meets (.erase key)
        exact hyields.ensuring fun later => (erase_writes hes key).copiesTo (Nat.le_succ _)
      · have hyields : (m.perform (.modify key f)).Yields _ := hs.meets (.modify key f)
        exact hyields.ensuring fun later => (modify_writes m key f).copiesTo (Nat.le_refl _)

/-- A copy stays what it was, and of the map that was written its one block is new. -/
example : ((history 8 [(0, .call 0 (.insert [97] 1)), (3, .copy 0), (0, .call 0 (.insert [98] 2))]).run 0).map
    (fun r => r.1.map fun m => (m.size, r.1.map fun m' => newcomers Tower.stamp m.leaves.tables m'.leaves.tables)) =
      .ok [(2, [0, 1]), (1, [1, 0])] := by decide +kernel

end OrderedMap

end OrderedStore
