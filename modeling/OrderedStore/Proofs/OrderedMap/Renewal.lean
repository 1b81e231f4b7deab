import Mathlib.Tactic
import OrderedStore.Proofs.OrderedMap.Refines
import OrderedStore.Proofs.Pool.Renewal
import OrderedStore.Proofs.Trie.Renewal

/-!
# What a call on a map makes anew

A write makes anew what lies on the path of its key in the trie, and the tables on the paths of the slots it writes in
the pool. A leaf that is stored or removed is linked to one leaf on either side, so at most three slots are written.
Everything else of the map that is left is a piece of the map there was: `Rebuilt` says so, and `Copied` says in
addition how much is new.
-/

namespace OrderedStore

open Edit

variable {V : Type} {now mid next count slots : Nat}

/-! ## Pieces -/

/-- A piece that versions of a map may share. -/
inductive Piece (V : Type)
  | node (n : Node)
  | table (t : Tower V)

def Piece.stamp : Piece V → Stamp
  | node n => n.stamp
  | table t => t.stamp

/-- The pieces of a trie and of the pool of its leaves. -/
def piecesOf (n : Node) (p : Pool V) : List (Piece V) := n.nodes.map .node ++ p.tables.map .table

/-- A trie and its pool that an edit made of others: their pieces are old ones or made on the way, and the old tables
are in their places. -/
structure Rebuilt (n n' : Node) (p p' : Pool V) (now next : Nat) : Prop where
  renewed : Renewed Piece.stamp (piecesOf n p) (piecesOf n' p') now next
  places : p.KeepsPlaces p' now

/-- Of a trie and its pool, only so many nodes and only the tables on the paths of so many slots are new. -/
structure Copied (n n' : Node) (p p' : Pool V) (count slots now next : Nat) : Prop
    extends Rebuilt n n' p p' now next where
  nodes : newcomers Node.stamp n.nodes n'.nodes ≤ count
  tables : newcomers Tower.stamp p.tables p'.tables ≤ slots * (p'.height + 1)

variable {n n' : Node} {p p' : Pool V}

theorem mem_piecesOf_node {x : Node} : Piece.node x ∈ piecesOf n p ↔ x ∈ n.nodes := by simp [piecesOf]

theorem mem_piecesOf_table {x : Tower V} : Piece.table x ∈ piecesOf n p ↔ x ∈ p.tables := by simp [piecesOf]

theorem renewed_nodes (h : Renewed Node.stamp n.nodes n'.nodes now next) :
    Renewed Piece.stamp (piecesOf n p) (piecesOf n' p) now next := by
  refine h.frame (f := Piece.node) (fun _ => rfl) (List.subset_append_left _ _) fun x hx => ?_
  rcases List.mem_append.1 hx with hx | hx
  · exact Or.inr hx
  · exact Or.inl (List.mem_append_right _ hx)

theorem renewed_tables (h : Renewed Tower.stamp p.tables p'.tables now next) :
    Renewed Piece.stamp (piecesOf n p) (piecesOf n p') now next := by
  refine h.frame (f := Piece.table) (fun _ => rfl) (List.subset_append_right _ _) fun x hx => ?_
  rcases List.mem_append.1 hx with hx | hx
  · exact Or.inl (List.mem_append_left _ hx)
  · exact Or.inr hx

/-- Nothing was written. -/
theorem Rebuilt.refl (n : Node) (p : Pool V) : Rebuilt n n p p now now :=
  ⟨Renewed.of_subset (List.Subset.refl _) (Nat.le_refl now), Pool.KeepsPlaces.refl p now⟩

/-- Leaves that were written, the trie being left as it is. -/
theorem rebuilt_of_rewritten {ids : List LeafId} (h : p.Rewritten p' ids now next) : Rebuilt n n p p' now next :=
  ⟨renewed_tables h.renewed, h.places⟩

/-- A trie that was written, and then its leaves. -/
theorem rebuilt_of_remade {ids : List LeafId} (h : n.Remade n' count now mid) (h' : p.Rewritten p' ids mid next) :
    Rebuilt n n' p p' now next where
  renewed := (renewed_nodes h.renewed).trans (renewed_tables h'.renewed)
  places := (Pool.KeepsPlaces.refl p now).trans h'.places h.renewed.le

theorem Copied.refl (n : Node) (p : Pool V) : Copied n n p p count slots now now where
  toRebuilt := Rebuilt.refl n p
  nodes := by rw [newcomers_self]; exact Nat.zero_le _
  tables := by rw [newcomers_self]; exact Nat.zero_le _

theorem Copied.mono (h : Copied n n' p p' count slots now next) {count' slots' : Nat} (hcount : count ≤ count')
    (hslots : slots ≤ slots') : Copied n n' p p' count' slots' now next where
  toRebuilt := h.toRebuilt
  nodes := h.nodes.trans hcount
  tables := h.tables.trans (Nat.mul_le_mul_right _ hslots)

theorem newcomers_nodes_le (h : n.Remade n' count now next) : newcomers Node.stamp n.nodes n'.nodes ≤ count + 1 := by
  refine h.countP_le fun x hx => ?_
  simpa using ⟨x, hx, rfl⟩

theorem newcomers_tables_le {ids : List LeafId} (hkept : p'.Kept (· ∈ p.tables.map Tower.stamp) ids)
    (hlen : ids.length ≤ slots) : newcomers Tower.stamp p.tables p'.tables ≤ slots * (p'.height + 1) :=
  (hkept.countP_le fun _ hx => of_decide_eq_true hx).trans (Nat.mul_le_mul_right _ hlen)

theorem old_tables (p : Pool V) : ∀ x ∈ p.tables, x.stamp ∈ p.tables.map Tower.stamp :=
  fun _ hx => List.mem_map_of_mem hx

/-- A leaf is linked to one leaf on either side at most. -/
theorem length_links (id pred succ : Link) : (id.toList ++ pred.toList ++ succ.toList).length ≤ 3 := by
  cases id <;> cases pred <;> cases succ <;> simp

/-! ## Writes to a trie -/

/-- A leaf that was stored, put into the trie and linked to others. -/
theorem copied_of_new {p₁ p₂ : Pool V} {id : LeafId} {ids : List LeafId} {a b : Nat} (h₁ : p.Opened p₁ id now a)
    (h₂ : n.Remade n' count a b) (h₃ : p₁.Rewritten p₂ ids b next) (hid : id ∈ ids) (hlen : ids.length ≤ 3) :
    Copied n n' p p₂ (count + 1) 3 now next where
  renewed := (renewed_tables h₁.renewed).trans (rebuilt_of_remade h₂ h₃).renewed
  places := h₁.places.trans (rebuilt_of_remade h₂ h₃).places h₁.renewed.le
  nodes := newcomers_nodes_le h₂
  tables := by
    have hkept := (h₁.kept _ (old_tables p)).mono (List.cons_subset.2 ⟨hid, List.nil_subset ids⟩)
    exact newcomers_tables_le (h₃.kept _ ids (List.Subset.refl _) hkept) hlen

/-- Leaves that were written, and the trie that was written for them. -/
theorem copied_of_old {ids : List LeafId} (h₁ : n.Remade n' count now mid) (h₂ : p.Rewritten p' ids mid next)
    (hlen : ids.length ≤ slots) : Copied n n' p p' (count + 1) slots now next where
  toRebuilt := rebuilt_of_remade h₁ h₂
  nodes := newcomers_nodes_le h₁
  tables := newcomers_tables_le
    (h₂.kept _ ids (List.Subset.refl _) (Pool.kept_of_old (old_tables p) ids)) hlen

/-- Leaves that were written, the trie being left as it is. -/
theorem copied_of_rewritten {ids : List LeafId} (h : p.Rewritten p' ids now next) (hlen : ids.length ≤ slots) :
    Copied n n p p' 0 slots now next where
  toRebuilt := rebuilt_of_rewritten h
  nodes := (newcomers_self _ _).le
  tables := newcomers_tables_le
    (h.kept _ ids (List.Subset.refl _) (Pool.kept_of_old (old_tables p) ids)) hlen

namespace Trie

variable {t : Trie} {key : Bytes}

theorem modify_copied (n : Node) (link : Link) (f : Leaf V → Leaf V) :
    (p.modify link f).EnsuresFrom now fun p' next => Copied n n p p' 0 1 now next :=
  (p.modify_rewritten link f).mono fun p' next h => copied_of_rewritten h (by cases link <;> simp)

/-- **Storing a value under a key that is there** makes no node. -/
theorem insert_old_copied (hold : (t.find? key).isSome) (value : V) :
    (t.insert p key value).EnsuresFrom now fun r next => Copied t.root r.2.1.root p r.2.2 0 1 now next := by
  obtain ⟨link, hlink⟩ := Option.isSome_iff_exists.1 hold
  unfold insert
  rw [hlink]
  refine EnsuresFrom.bind_lift fun leaf _ => ?_
  exact (modify_copied t.root link _).bind fun p' next h => EnsuresFrom.pure h

/-- **Storing a value** makes the path of the key anew. -/
theorem insert_copied (ht : t.root.Regular) (key : Bytes) (value : V) :
    (t.insert p key value).EnsuresFrom now fun r next =>
      Copied t.root r.2.1.root p r.2.2 (key.length + 2) 3 now next := by
  by_cases hold : (t.find? key).isSome
  · exact (insert_old_copied hold value).mono fun r next h => h.mono (Nat.zero_le _) (by omega)
  · rw [Option.not_isSome_iff_eq_none] at hold
    unfold insert
    rw [hold]
    dsimp only
    refine (p.put_opened key value).bind fun r a h₁ => ?_
    refine (ht.insert_remade key).bind fun n b h₂ => ?_
    have hself : ∀ pred succ : Link, r.1 ∈ (some r.1 : Link).toList ++ pred.toList ++ succ.toList := by simp
    split
    · refine (r.2.spliceAfter_rewritten _ _).bind fun p' next ⟨succ, h₃⟩ => EnsuresFrom.pure ?_
      exact copied_of_new h₁ h₂ h₃ (hself _ _) (length_links _ _ _)
    · refine (r.2.spliceBefore_rewritten _ _).bind fun p' next ⟨pred, h₃⟩ => EnsuresFrom.pure ?_
      exact copied_of_new h₁ h₂ h₃ (hself _ _) (length_links _ _ _)
    · exact EnsuresFrom.pure (copied_of_new h₁ h₂ (Pool.Rewritten.refl _ [r.1]) List.mem_cons_self (by simp))

/-- **Removing a key** makes its path anew. -/
theorem erase_copied (ht : t.root.Regular) (key : Bytes) :
    (t.erase p key).EnsuresFrom now fun r next =>
      Copied t.root r.2.1.root p r.2.2 (key.length + 1) 3 now next := by
  unfold erase
  split
  · exact EnsuresFrom.pure (Copied.refl t.root p)
  · rename_i link hlink
    refine (ht.erase_remade key).bind fun n a h₁ => ?_
    refine (p.unlink_rewritten link).bind fun p₁ b hunlinked => ?_
    obtain ⟨pred, succ, h₂⟩ := hunlinked
    refine (p₁.vacate_rewritten link).bind fun r next h₃ => EnsuresFrom.pure ?_
    refine copied_of_old h₁ ((h₂.trans h₃).mono ?_) (length_links link pred succ)
    intro id hid
    simp only [List.mem_append] at hid ⊢
    tauto

/-- **Removing all keys that start with some bytes** makes the path to them anew, and the leaves on either side. -/
theorem eraseUnder_rebuilt (ht : t.root.Regular) (start : Bytes) :
    (t.eraseUnder p start).EnsuresFrom now fun r next => Rebuilt t.root r.2.1.root p r.2.2 now next := by
  unfold eraseUnder
  split
  · exact EnsuresFrom.pure (Rebuilt.refl t.root p)
  · split
    · exact EnsuresFrom.pure (Rebuilt.refl t.root p)
    · refine (ht.eraseUnder_remade start).bind fun n a h₁ => ?_
      refine (p.vacateRun_rewritten _ _).bind fun r next ⟨ids, h₂⟩ => EnsuresFrom.pure ?_
      exact rebuilt_of_remade h₁ h₂

end Trie

/-! ## Calls on a map -/

namespace OrderedMap

/-- The pieces of a map. -/
def pieces (m : OrderedMap V) : List (Piece V) := piecesOf m.trie.root m.leaves

/-- The call makes no more than so many nodes anew, and no more than the tables on the paths of so many slots. -/
def Writes (m : OrderedMap V) (call : Call V) (count slots now : Nat) : Prop :=
  (m.perform call).EnsuresFrom now fun r next =>
    Copied m.trie.root r.2.trie.root m.leaves r.2.leaves count slots now next

variable {m : OrderedMap V} {es : List (Entry V)} {key : Bytes} {value : V}

/-- A call that inserts copies what the trie copies for it. -/
theorem writes_of_insert
    (h : (m.trie.insert m.leaves key value).EnsuresFrom now fun r next =>
      Copied m.trie.root r.2.1.root m.leaves r.2.2 count slots now next) :
    m.Writes (.insert key value) count slots now := by
  unfold Writes
  by_cases hlen : key.length > m.keyLimit
  · rw [perform_insert_refused hlen]
    exact EnsuresFrom.pure (Copied.refl _ _)
  · rw [perform_insert_accepted hlen]
    refine EnsuresFrom.bind (P := fun r next =>
      Copied m.trie.root r.2.trie.root m.leaves r.2.leaves count slots now next) ?_ fun r next hr => EnsuresFrom.pure hr
    exact h.bind fun r next hr => EnsuresFrom.pure hr

theorem modify_writes (m : OrderedMap V) (key : Bytes) (f : V → V) : m.Writes (.modify key f) 0 1 now := by
  refine EnsuresFrom.bind (P := fun r next =>
    Copied m.trie.root (r.getD m).trie.root m.leaves (r.getD m).leaves 0 1 now next) ?_ fun r next hr => ?_
  · unfold modify?
    split
    · exact EnsuresFrom.pure (Copied.refl _ _)
    · rename_i link _
      exact (Trie.modify_copied m.trie.root link _).bind fun p next h => EnsuresFrom.pure h
  · cases r with
    | none => exact EnsuresFrom.pure hr
    | some m' => exact EnsuresFrom.pure hr

theorem erase_writes (h : m.Holds es) (key : Bytes) : m.Writes (.erase key) (key.length + 1) 3 now := by
  refine EnsuresFrom.bind (P := fun r next =>
    Copied m.trie.root r.2.trie.root m.leaves r.2.leaves _ _ now next) ?_ fun r next hr => EnsuresFrom.pure hr
  exact (Trie.erase_copied h.trie.regular key).bind fun r next hr => EnsuresFrom.pure hr

/-- A map that a call made of another. -/
def BuiltFrom (m' m : OrderedMap V) (now next : Nat) : Prop :=
  Rebuilt m.trie.root m'.trie.root m.leaves m'.leaves now next

theorem eraseUnder_rebuilt (h : m.Holds es) (start : Bytes) :
    (m.eraseUnder start).EnsuresFrom now fun r next => r.2.BuiltFrom m now next :=
  (Trie.eraseUnder_rebuilt h.trie.regular start).bind fun _ _ hr => EnsuresFrom.pure hr

/-- **What a call leaves** consists of old pieces and of made ones, whichever call it is. -/
theorem perform_rebuilt (h : m.Holds es) (call : Call V) :
    (m.perform call).EnsuresFrom now fun r next => r.2.BuiltFrom m now next := by
  cases call with
  | insert key value =>
      exact (writes_of_insert (Trie.insert_copied h.trie.regular key value)).mono fun r next hr => hr.toRebuilt
  | modify key f => exact (modify_writes m key f).mono fun r next hr => hr.toRebuilt
  | erase key => exact (erase_writes h key).mono fun r next hr => hr.toRebuilt
  | eraseUnder start => exact (eraseUnder_rebuilt h start).bind fun r next hr => EnsuresFrom.pure hr
  | clear =>
      unfold perform clear
      rw [bind_assoc]
      exact (eraseUnder_rebuilt h []).bind fun r next hr => EnsuresFrom.pure hr

end OrderedMap

end OrderedStore
