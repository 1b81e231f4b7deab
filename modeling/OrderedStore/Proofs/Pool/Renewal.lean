import Mathlib.Tactic
import OrderedStore.Proofs.Pool.Retraced

/-!
# Pools made anew

Every write to a pool comes down to tables on the paths of some slots that are made anew. Which slots those are is told
for each write: the slot itself, the slots on either side of it where leaves are linked, and for a run of leaves some
slots or other. What is always true of such a write is said by `Rewritten`, and by `Opened` where a slot is opened or
taken: what the pool consists of afterwards, how many of its tables are new, and that the old ones are where they were.
-/

namespace OrderedStore

variable {V : Type} {h : Nat} {id : LeafId} {now next : Nat}

namespace Pool

open Edit

variable {p p' : Pool V} {old : Stamp → Prop} {ids ids' : List LeafId} {mid : Nat}

/-- All tables of a pool. -/
def tables (p : Pool V) : List (Tower V) := p.root.elim [] fun t => t.table.tables

theorem tables_root {t : Tower V} (hroot : p.root = some t) : p.tables = t.table.tables := by
  rw [tables, hroot, Option.elim_some]

theorem tables_none (hroot : p.root = none) : p.tables = [] := by rw [tables, hroot, Option.elim_none]

/-- The tables of a pool are old unless they are on the path of one of some slots. -/
def Kept (p : Pool V) (old : Stamp → Prop) (ids : List LeafId) : Prop := ∀ t, p.root = some t → t.table.Kept old ids

theorem kept_of_old (hp : ∀ x ∈ p.tables, old x.stamp) (ids : List LeafId) : p.Kept old ids := by
  intro t hroot
  rw [tables_root hroot] at hp
  exact Table.kept_of_old hp ids

theorem Kept.mono (hp : p.Kept old ids) (hsub : ids ⊆ ids') : p.Kept old ids' := fun t ht => (hp t ht).mono hsub

theorem Kept.countP_le {new : Tower V → Bool} (hnew : ∀ x, new x = true → ¬ old x.stamp) (hp : p.Kept old ids) :
    p.tables.countP new ≤ ids.length * (p.height + 1) := by
  cases hroot : p.root with
  | none =>
      rw [tables_none hroot, List.countP_nil]
      exact Nat.zero_le _
  | some t =>
      rw [tables_root hroot, height_root hroot]
      exact (hp t hroot).countP_le hnew

/-- The old tables of a pool are where they were in an earlier one, or are not there any more. -/
def InPlace (p : Pool V) (old : Stamp → Prop) (earlier : Pool V) : Prop :=
  earlier.height ≤ p.height ∧
    ∀ t, p.root = some t → t.table.InPlace old earlier.root (t.height - earlier.height)

theorem inPlace_self (old : Stamp → Prop) (p : Pool V) : p.InPlace old p := by
  refine ⟨Nat.le_refl _, fun t hroot => ?_⟩
  rw [height_root hroot, Nat.sub_self, hroot]
  exact Table.inPlace_self old t.table

/-- **If the old tables are where they were, the comparison counts the new ones.** -/
theorem InPlace.unsharedWith_eq {earlier : Pool V} (hp : p.InPlace (· ∈ earlier.tables.map Tower.stamp) earlier) :
    p.unsharedWith earlier = newcomers Tower.stamp earlier.tables p.tables := by
  unfold newcomers
  cases hroot : p.root with
  | none =>
      rw [unsharedWith, hroot, tables_none hroot]
      rfl
  | some t =>
      rw [unsharedWith, hroot, tables_root hroot]
      refine (hp.2 t hroot).unsharedWith_eq (fun x => decide_eq_true_iff) fun e he x hx => ?_
      exact List.mem_map_of_mem (tables_root he ▸ hx)

/-- Old tables that are in their places in one pool are in their places in the other. -/
def KeepsPlaces (p p' : Pool V) (now : Nat) : Prop :=
  ∀ (old : Stamp → Prop) (earlier : Pool V), Drawn old now → p.InPlace old earlier → p'.InPlace old earlier

theorem KeepsPlaces.refl (p : Pool V) (now : Nat) : p.KeepsPlaces p now := fun _ _ _ h => h

theorem KeepsPlaces.trans {p'' : Pool V} (h : p.KeepsPlaces p' now) (h' : p'.KeepsPlaces p'' mid) (hle : now ≤ mid) :
    p.KeepsPlaces p'' now :=
  fun old earlier hold hp => h' old earlier (hold.mono hle) (h old earlier hold hp)

/-- What is always true of a write: tables made anew, in a pool that the old ones are left in, each of them once and in
its place. -/
structure Continues (p p' : Pool V) (now next : Nat) : Prop where
  reworked : Reworked Tower.stamp p.tables p'.tables now next
  places : p.KeepsPlaces p' now

theorem Continues.le (h : p.Continues p' now next) : now ≤ next := h.reworked.le

theorem Continues.renewed (h : p.Continues p' now next) : Renewed Tower.stamp p.tables p'.tables now next :=
  h.reworked.renewed

theorem Continues.refl (p : Pool V) (now : Nat) : p.Continues p now now :=
  ⟨Reworked.of_subperm (List.Subperm.refl _) (Nat.le_refl now), KeepsPlaces.refl p now⟩

theorem Continues.trans {p'' : Pool V} (h : p.Continues p' now mid) (h' : p'.Continues p'' mid next) :
    p.Continues p'' now next := ⟨h.reworked.trans h'.reworked, h.places.trans h'.places h.le⟩

/-! ## One slot -/

/-- Tables made anew, and no others than those on the paths of some slots. -/
structure Rewritten (p p' : Pool V) (ids : List LeafId) (now next : Nat) : Prop extends p.Continues p' now next where
  kept : ∀ (old : Stamp → Prop) (all : List LeafId), ids ⊆ all → p.Kept old all → p'.Kept old all

theorem Rewritten.refl (p : Pool V) (ids : List LeafId) : p.Rewritten p ids now now :=
  ⟨Continues.refl p now, fun _ _ _ h => h⟩

theorem Rewritten.trans {p₁ p₂ : Pool V} {ids₁ ids₂ : List LeafId} (h₁ : p.Rewritten p₁ ids₁ now mid)
    (h₂ : p₁.Rewritten p₂ ids₂ mid next) : p.Rewritten p₂ (ids₁ ++ ids₂) now next where
  toContinues := h₁.toContinues.trans h₂.toContinues
  kept := fun old all hsub h =>
    h₂.kept old all (fun _ hx => hsub (List.mem_append_right _ hx))
      (h₁.kept old all (fun _ hx => hsub (List.mem_append_left _ hx)) h)

theorem Rewritten.mono (h : p.Rewritten p' ids now next) (hsub : ids ⊆ ids') : p.Rewritten p' ids' now next :=
  ⟨h.toContinues, fun old all hall => h.kept old all fun _ hx => hall (hsub hx)⟩

theorem reworked_of_retraced {olds : List (Tower V)} {t t' : Table V h} (ht : t.Retraced id now t')
    (hbelow : t.below.Subperm olds) : Reworked Tower.stamp olds t'.tables now (now + (h + 1)) := by
  obtain ⟨made, hmade, hsub⟩ := ht.made
  exact ⟨by omega, made, hmade, hsub.trans ((List.subperm_append_left made).2 hbelow)⟩

theorem below_subperm (t : Table V h) : t.below.Subperm t.tables := by
  rw [Table.tables_eq]
  exact (List.sublist_cons_self _ _).subperm

/-- **Writing a slot** makes the tables on its path anew. -/
theorem write_rewritten (p : Pool V) (id : LeafId) (slot : Slot V) :
    (p.write id slot).EnsuresFrom now fun p' next => p.Rewritten p' [id] now next := by
  unfold write
  split
  · exact EnsuresFrom.pure (Rewritten.refl p _)
  · rename_i t hroot
    refine EnsuresFrom.bind_draw (EnsuresFrom.pure ?_)
    have ht : t.table.Retraced id now (t.table.write id slot now) := Table.write_retraced slot t.table
    refine ⟨⟨?_, fun old earlier hold hp => ⟨?_, ?_⟩⟩, fun old all hsub hkept => ?_⟩
    · rw [tables_root hroot]
      exact reworked_of_retraced ht (below_subperm t.table)
    · have hle := hp.1
      rwa [height_root hroot] at hle
    · rintro _ ⟨⟩
      exact ht.inPlace hold (hp.2 t hroot)
    · rintro _ ⟨⟩
      exact ht.kept (hkept t hroot) (hsub List.mem_cons_self)

theorem modify_rewritten (p : Pool V) (link : Link) (f : Leaf V → Leaf V) :
    (p.modify link f).EnsuresFrom now fun p' next => p.Rewritten p' link.toList now next := by
  unfold modify
  refine EnsuresFrom.bind_lift fun leaf hleaf => ?_
  cases link with
  | none => exact EnsuresFrom.pure (Rewritten.refl p _)
  | some id => exact write_rewritten p id _

theorem vacate_rewritten (p : Pool V) (link : Link) :
    (p.vacate link).EnsuresFrom now fun r next => p.Rewritten r.2 link.toList now next := by
  unfold vacate
  split
  · exact EnsuresFrom.throw
  · rename_i id
    split
    · exact EnsuresFrom.throw
    · exact EnsuresFrom.throw
    · exact (write_rewritten p id _).bind fun p' next hp' => EnsuresFrom.pure ⟨⟨hp'.reworked, hp'.places⟩, hp'.kept⟩

/-! ## Links -/

theorem modify_if_rewritten (p : Pool V) (link : Link) (f : Leaf V → Leaf V) :
    (if link.isSome then p.modify link f else pure p : Edit (Pool V)).EnsuresFrom now
      fun p' next => p.Rewritten p' link.toList now next := by
  split
  · exact modify_rewritten p link f
  · exact EnsuresFrom.pure (Rewritten.refl p _)

theorem connect_rewritten (p : Pool V) (a b : Link) :
    (p.connect a b).EnsuresFrom now fun p' next => p.Rewritten p' (a.toList ++ b.toList) now next := by
  rw [connect_eq]
  refine (modify_if_rewritten p a _).bind fun p₁ mid h₁ => ?_
  exact (modify_if_rewritten p₁ b _).mono fun p₂ next h₂ => h₁.trans h₂

theorem between_rewritten (p : Pool V) (pred id succ : Link) :
    (do
      let p ← p.connect pred id
      p.connect id succ : Edit (Pool V)).EnsuresFrom now fun p' next =>
        p.Rewritten p' (id.toList ++ pred.toList ++ succ.toList) now next := by
  refine (connect_rewritten p pred id).bind fun p₁ mid h₁ => ?_
  refine (connect_rewritten p₁ id succ).mono fun p₂ next h₂ => (h₁.trans h₂).mono ?_
  intro x hx
  simp only [List.mem_append] at hx ⊢
  tauto

theorem spliceAfter_rewritten (p : Pool V) (pred id : Link) :
    (p.spliceAfter pred id).EnsuresFrom now fun p' next =>
      ∃ succ : Link, p.Rewritten p' (id.toList ++ pred.toList ++ succ.toList) now next := by
  unfold spliceAfter
  exact EnsuresFrom.bind_lift fun succ _ => (between_rewritten p pred id succ).mono fun _ _ h => ⟨succ, h⟩

theorem spliceBefore_rewritten (p : Pool V) (succ id : Link) :
    (p.spliceBefore succ id).EnsuresFrom now fun p' next =>
      ∃ pred : Link, p.Rewritten p' (id.toList ++ pred.toList ++ succ.toList) now next := by
  unfold spliceBefore
  exact EnsuresFrom.bind_lift fun pred _ => (between_rewritten p pred id succ).mono fun _ _ h => ⟨pred, h⟩

theorem unlink_rewritten (p : Pool V) (id : Link) :
    (p.unlink id).EnsuresFrom now fun p' next =>
      ∃ pred succ : Link, p.Rewritten p' (id.toList ++ pred.toList ++ succ.toList) now next := by
  unfold unlink
  refine EnsuresFrom.bind_lift fun leaf _ => ?_
  refine (connect_rewritten p leaf.prev leaf.next).bind fun p₁ mid h₁ => ?_
  refine (modify_rewritten p₁ id _).mono fun p₂ next h₂ => ⟨leaf.prev, leaf.next, (h₁.trans h₂).mono ?_⟩
  intro x hx
  simp only [List.mem_append] at hx ⊢
  tauto

/-! ## Runs -/

theorem vacateThrough_rewritten (last : Link) (steps : Nat) (p : Pool V) (current : Link) :
    (vacateThrough last steps p current).EnsuresFrom now fun r next => ∃ ids, p.Rewritten r.2 ids now next := by
  induction steps generalizing p current now with
  | zero => exact EnsuresFrom.throw
  | succ steps ih =>
      unfold vacateThrough
      refine EnsuresFrom.bind_lift fun link _ => ?_
      refine (vacate_rewritten p current).bind fun r mid h₁ => ?_
      dsimp only
      split
      · exact EnsuresFrom.pure ⟨_, h₁⟩
      · split
        · exact EnsuresFrom.throw
        · exact (ih r.2 link).bind fun r' next ⟨ids, h₂⟩ => EnsuresFrom.pure ⟨_, h₁.trans h₂⟩

theorem vacateRun_rewritten (p : Pool V) (first last : Link) :
    (p.vacateRun first last).EnsuresFrom now fun r next => ∃ ids, p.Rewritten r.2 ids now next := by
  unfold vacateRun
  refine EnsuresFrom.bind_lift fun before _ => EnsuresFrom.bind_lift fun after _ => ?_
  refine (vacateThrough_rewritten last _ p first).bind fun r mid ⟨ids, h₁⟩ => ?_
  exact (connect_rewritten r.2 before after).bind fun p' next h₂ => EnsuresFrom.pure ⟨_, h₁.trans h₂⟩

/-! ## A new slot -/

/-- Tables made anew in a pool that opened or took a slot, and no others than those on the path of the slot. -/
structure Opened (p p' : Pool V) (id : LeafId) (now next : Nat) : Prop extends p.Continues p' now next where
  kept : ∀ (old : Stamp → Prop), (∀ x ∈ p.tables, old x.stamp) → p'.Kept old [id]

theorem Opened.trans (h : p.Opened p' id now mid) {p'' : Pool V} (h' : p'.Rewritten p'' [id] mid next) :
    p.Opened p'' id now next where
  toContinues := h.toContinues.trans h'.toContinues
  kept := fun old hold => h'.kept old [id] (List.Subset.refl _) (h.kept old hold)

/-- The old root is the only child of a raised one. -/
theorem eq_of_raise {t : Tower V} {i : Nat} {child : Table V t.height}
    (hi : (Table.children (h := t.height) (t.raise now).table)[i]? = some child) : i = 0 ∧ child = t.table := by
  have hget : (#[t.table] : Array (Table V t.height))[i]? = some child := hi
  cases i with
  | zero => exact ⟨rfl, (Option.some.inj hget).symm⟩
  | succ i => cases hget

/-- A new root on top leaves the old tables where they were, one level further down. -/
theorem InPlace.raise {old : Stamp → Prop} {earlier : Pool V} {t : Tower V} (hp : p.InPlace old earlier)
    (hold : Drawn old now) (hroot : p.root = some t) :
    ({ p with root := some (t.raise now) } : Pool V).InPlace old earlier := by
  have hle : earlier.height ≤ t.height := by
    have hle := hp.1
    rwa [height_root hroot] at hle
  refine ⟨Nat.le_succ_of_le hle, ?_⟩
  rintro _ ⟨⟩
  rw [show (t.raise now).height - earlier.height = t.height - earlier.height + 1 from Nat.succ_sub hle]
  refine Table.inPlace_succ.2 (Or.inr ⟨hold.not_old (Nat.le_refl now), fun i child hi => ?_⟩)
  obtain ⟨rfl, rfl⟩ := eq_of_raise hi
  exact hp.2 t hroot

/-- What is left of growing once there is a tower with nothing below its root but old tables. -/
theorem growWith_opened {t : Tower V} (hle : now ≤ mid) (hbelow : t.table.below.Subperm p.tables)
    (hkept : ∀ old : Stamp → Prop, (∀ x ∈ p.tables, old x.stamp) → t.table.Kept old [id])
    (hplaces : p.KeepsPlaces { p with root := some t } now) :
    (do
      let now ← draw (t.height + 1)
      let table ← t.table.extend id now
      pure (⟨t.height, table⟩ : Tower V) : Edit (Tower V)).EnsuresFrom mid
        fun t next => p.Opened { p with root := some t } id now next := by
  refine EnsuresFrom.bind_draw (EnsuresFrom.bind_lift fun t' ht' => EnsuresFrom.pure ?_)
  have ht' := Table.extend_retraced ht'
  refine ⟨⟨?_, fun old earlier hold hp => ⟨(hplaces old earlier hold hp).1, ?_⟩⟩, fun old hold => ?_⟩
  · exact (Reworked.of_subperm (List.Subperm.refl _) hle).trans (reworked_of_retraced ht' hbelow)
  · rintro _ ⟨⟩
    exact ht'.inPlace (hold.mono hle) ((hplaces old earlier hold hp).2 t rfl)
  · rintro _ ⟨⟩
    exact ht'.kept (hkept old hold) List.mem_cons_self

/-- Below a new root there is what the tower was before. -/
theorem below_raise (t : Tower V) (now : Stamp) : (t.raise now).table.below = t.table.tables := by
  change [t.table].flatMap Table.tables = _
  rw [List.flatMap_singleton]

/-- **Growing a tower** makes the tables on the path of the slot anew, a root on top of the others among them. -/
theorem grow_opened (p : Pool V) (id : LeafId) :
    (grow p.root id).EnsuresFrom now fun t next => p.Opened { p with root := some t } id now next := by
  unfold grow
  cases hroot : p.root with
  | none =>
      refine EnsuresFrom.bind_fresh (growWith_opened (t := ⟨0, Table.empty V now 0⟩) (Nat.le_succ now) ?_
        (fun old _ => ?_) fun old earlier hold hp => ⟨?_, ?_⟩)
      · exact List.nil_subperm
      · exact Table.kept_empty List.mem_cons_self
      · have hle := hp.1
        rwa [height_none hroot] at hle
      · rintro _ ⟨⟩
        exact Table.inPlace_empty hold
  | some t =>
      have htables := tables_root hroot
      dsimp only
      split
      · refine growWith_opened (Nat.le_refl now) ?_ (fun old hold => ?_) fun old earlier hold hp => ?_
        · rw [htables]
          exact below_subperm t.table
        · exact Table.kept_of_old (htables ▸ hold) _
        · rwa [← hroot]
      · refine EnsuresFrom.bind_fresh (growWith_opened (t := t.raise now) (Nat.le_succ now) ?_
          (fun old hold => ?_) fun old earlier hold hp => ?_)
        · rw [below_raise, htables]
        · refine Table.kept_succ.2 ⟨by simp, fun i child hi => ?_⟩
          obtain ⟨-, rfl⟩ := eq_of_raise hi
          exact Table.kept_of_old (htables ▸ hold) _
        · exact hp.raise hold hroot

theorem openSlot_opened (p : Pool V) :
    p.openSlot.EnsuresFrom now fun r next => p.Opened r.2 r.1 now next := by
  unfold openSlot
  dsimp only
  split
  · exact EnsuresFrom.throw
  · refine (grow_opened p ⟨p.opened⟩).bind fun t next ht => EnsuresFrom.pure ⟨⟨ht.reworked, ht.places⟩, ht.kept⟩

/-- Taking an opened slot. -/
theorem fill_opened {next' : Link} {leaf : Leaf V} {p₁ : Pool V} (h₁ : p.Opened p₁ id now mid) :
    (do
      let p ← p₁.write id (.live leaf)
      pure (id, ({ p with free := if p.free = some id then next' else p.free, live := p.live + 1 } : Pool V)) :
        Edit (LeafId × Pool V)).EnsuresFrom mid fun r next => p.Opened r.2 r.1 now next := by
  refine (write_rewritten p₁ id _).bind fun p₂ next h₂ => EnsuresFrom.pure ?_
  have h := h₁.trans h₂
  exact ⟨⟨h.reworked, h.places⟩, h.kept⟩

/-- **Storing a leaf** makes the tables on the path of its slot anew. -/
theorem put_opened (p : Pool V) (key : Bytes) (value : V) :
    (p.put key value).EnsuresFrom now fun r next => p.Opened r.2 r.1 now next := by
  unfold put
  cases hfree : p.free with
  | some id =>
      have h : p.Opened p id now now := ⟨Continues.refl p now, fun old hold => kept_of_old hold _⟩
      refine EnsuresFrom.bind (EnsuresFrom.pure (P := fun r mid => p.Opened r.2 r.1 now mid) h) fun r mid hr => ?_
      dsimp only
      split
      · exact EnsuresFrom.throw
      · exact EnsuresFrom.throw
      · exact fill_opened hr
  | none =>
      refine (openSlot_opened p).bind fun r mid hr => ?_
      dsimp only
      split
      · exact EnsuresFrom.throw
      · exact EnsuresFrom.throw
      · exact fill_opened hr

end Pool

end OrderedStore
