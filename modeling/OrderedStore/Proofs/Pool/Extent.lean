import Mathlib.Tactic
import OrderedStore.Proofs.Pool.Sound

/-!
# How far a tower reaches

A tower is filled from the left, one block at a time, and it gets another level only when it is full. So the
slots it has are those of the blocks begun so far, and its height is the least one with room for the slots
that were opened. Writing a slot leaves both as they are; opening the next one moves them only at the end of
a block and at the end of the tower.
-/

namespace OrderedStore

variable {V : Type}

/-- How many slots there are in the blocks that hold the first `n`. -/
def Table.reach (n : Nat) : Nat := (n + 63) / 64 * 64

namespace Table

theorem room_mono {h h' : Nat} (hle : h ≤ h') : room h ≤ room h' :=
  Nat.mul_le_mul_left 64 (Nat.pow_le_pow_right (by decide) hle)

theorem room_lt {h h' : Nat} (hlt : h < h') : room h < room h' := by
  refine Nat.lt_of_lt_of_le ?_ (room_mono hlt)
  rw [room_succ]
  have := room_pos h
  omega

/-- A table has whole blocks only. -/
theorem reach_le {h n : Nat} (hn : n ≤ room h) : reach n ≤ room h := by
  unfold reach
  unfold room at hn ⊢
  generalize 32 ^ h = k at hn ⊢
  omega

/-- A slot of a page lies in a block begun so far just if it does in its child. -/
theorem reach_child {h n b y : Nat} (hy : y < room h) (hb : b * room h < n) :
    y < reach (min (room h) (n - b * room h)) ↔ y + room h * b < reach n := by
  unfold reach
  unfold room at hy hb ⊢
  generalize 32 ^ h = k at hy hb ⊢
  -- where a child begins a block begins, so the blocks of the child are blocks of the page
  rw [show b * (64 * k) = 64 * (b * k) by ring] at hb ⊢
  rw [show 64 * k * b = 64 * (b * k) by ring]
  generalize b * k = q at hb ⊢
  omega

/-- **A filled table has the slots of its blocks** and no others. -/
theorem Filled.slot?_isSome_iff {h n : Nat} {t : Table V h} {id : LeafId} (hf : t.Filled n) (hn : 0 < n) :
    (t.slot? id).isSome ↔ id.index % room h < reach n := by
  induction h generalizing n with
  | zero =>
      refine iff_of_true rfl (Nat.lt_of_lt_of_le (Nat.mod_lt _ (room_pos 0)) ?_)
      unfold room reach
      omega
  | succ h ih =>
      obtain ⟨-, hsize, hchild⟩ := filled_succ.1 hf
      have hpos := room_pos h
      have hy := Nat.mod_lt id.index hpos
      rw [slot?_succ, LeafId.mod_room_succ]
      by_cases hb : id.branch h < t.children.size
      · have hc := Array.getElem?_eq_getElem hb
        rw [hsize, Nat.lt_div_iff_mul_lt hpos] at hb
        have hbegun : id.branch h * room h < n := by omega
        rw [hc, Option.bind_some, ih (hchild _ _ hc) (lt_min hpos (by omega))]
        exact reach_child hy hbegun
      · -- past the last child the page has no slots, and none of its blocks is begun there
        rw [Array.getElem?_eq_none (Nat.not_lt.1 hb), Option.bind_none]
        refine iff_of_false (by simp) ?_
        rw [hsize, Nat.lt_div_iff_mul_lt hpos] at hb
        have hle : n ≤ room h * id.branch h := by
          rw [mul_comm]
          omega
        have hreach : reach n ≤ room h * id.branch h := by
          unfold reach
          unfold room at hle ⊢
          rw [mul_assoc] at hle ⊢
          generalize 32 ^ h * id.branch h = q at hle ⊢
          omega
        omega

end Table

namespace Pool

open Edit Table

theorem LaidOut.slot?_isSome_iff {p : Pool V} (hp : p.LaidOut) (hpos : 0 < p.opened) (id : LeafId) :
    (p.slot? id).isSome ↔ id.index < reach p.opened := by
  obtain ⟨t, hr⟩ : ∃ t, p.root = some t := by
    cases hr : p.root with
    | none => exact absurd (hp.untouched hr) (by omega)
    | some t => exact ⟨t, rfl⟩
  have ht := (hp.tower t hr).filled
  rw [slot?_root hr]
  rcases Nat.lt_or_ge id.index (room t.height) with hlt | hge
  · rw [Tower.slot?_of_lt hlt, ht.slot?_isSome_iff hpos, Nat.mod_eq_of_lt hlt]
  · rw [Tower.slot?_of_le hge]
    have := reach_le ht.le
    exact iff_of_false (by simp) (by omega)

/-! ## Heights -/

theorem write_height (p : Pool V) (id : LeafId) (slot : Slot V) :
    (p.write id slot).Ensures fun p' => p'.height = p.height := by
  unfold write
  cases hr : p.root with
  | none => exact Ensures.pure rfl
  | some t =>
      refine Ensures.after fun now => Ensures.pure ?_
      rw [height_root hr, height_root rfl]

/-- The height of a tower with room for one slot more: a first tower has no levels, and one without room for
the slot gets another. -/
def heightFor (id : LeafId) (root : Option (Tower V)) : Nat :=
  root.elim 0 fun t => if id.fits t.height then t.height else t.height + 1

/-- What is left of growing keeps the height of the tower it goes on with. -/
theorem growWith_height (t : Tower V) (id : LeafId) :
    (do
      let now ← draw (t.height + 1)
      let table ← t.table.extend id now
      pure (⟨t.height, table⟩ : Tower V) : Edit (Tower V)).Ensures fun t' => t'.height = t.height :=
  Ensures.after fun _ => Ensures.after fun _ => Ensures.pure rfl

theorem grow_height (root : Option (Tower V)) (id : LeafId) :
    (grow root id).Ensures fun t => t.height = heightFor id root := by
  unfold grow heightFor
  cases root with
  | none => exact Ensures.after fun now => growWith_height ⟨0, Table.empty V now 0⟩ id
  | some t =>
      dsimp only [Option.elim_some]
      split
      · exact growWith_height t id
      · exact Ensures.after fun now => growWith_height (t.raise now) id

theorem openSlot_height (p : Pool V) :
    p.openSlot.Ensures fun (_, p') => p'.height = heightFor ⟨p.opened⟩ p.root := by
  unfold openSlot
  split
  · exact Ensures.bind (P := fun _ => False) Ensures.throw fun _ h => h.elim
  · refine Ensures.bind (grow_height p.root ⟨p.opened⟩) fun t ht => Ensures.pure ?_
    exact ht

/-! ## Pools that reach no further than they have to -/

/-- A pool whose tower has the blocks and the levels that its open slots need, and no more. -/
structure Extent (p : Pool V) : Prop extends p.LaidOut where
  opened_le : p.opened ≤ slotLimit
  slots : ∀ id, (p.slot? id).isSome ↔ id.index < reach p.opened
  height : ∀ h, p.opened ≤ room h ↔ p.height ≤ h

theorem extent_empty : (empty : Pool V).Extent where
  toLaidOut := laidOut_empty
  opened_le := Nat.zero_le _
  slots := fun id => iff_of_false (by simp [slot?_none (p := (empty : Pool V)) rfl]) (by simp [empty, reach])
  height := fun h => iff_of_true (Nat.zero_le _) (Nat.zero_le _)

/-- The free list and the live count have no part in it. -/
theorem Extent.of_root {p p' : Pool V} (hp : p.Extent) (hroot : p'.root = p.root) (hopened : p'.opened = p.opened) :
    p'.Extent := by
  obtain ⟨root, free, opened, live⟩ := p
  obtain ⟨root', free', opened', live'⟩ := p'
  dsimp only at hroot hopened
  subst hroot hopened
  exact ⟨⟨hp.untouched, hp.tower⟩, hp.opened_le, hp.slots, hp.height⟩

/-- **Writing a slot moves neither end.** -/
theorem Extent.write_yields {p : Pool V} {id : LeafId} {slot : Slot V} (hp : p.Extent) (hid : id.index < p.opened) :
    (p.write id slot).Yields fun p' =>
      p'.Extent ∧ p'.slot? = Function.update p.slot? id (some slot) ∧
        p'.opened = p.opened ∧ p'.free = p.free ∧ p'.live = p.live := by
  refine ((Pool.write_yields hp.toLaidOut hid).with (write_height p id slot)).mono ?_
  rintro p' ⟨⟨hlaid, hslot, hopened, hfree, hlive⟩, hheight⟩
  refine ⟨⟨hlaid, hopened ▸ hp.opened_le, ?_, ?_⟩, hslot, hopened, hfree, hlive⟩
  · intro id'
    rw [hopened, ← hp.slots, hslot]
    by_cases heq : id' = id
    · subst heq
      rw [Function.update_self]
      exact iff_of_true rfl (hp.slot?_isSome hid)
    · rw [Function.update_of_ne heq]
  · rw [hopened, hheight]
    exact hp.height

/-- The height stays the least one when the next slot is opened. -/
theorem Extent.height_openSlot {p p' : Pool V} (hp : p.Extent) (hopened : p'.opened = p.opened + 1)
    (hheight : p'.height = heightFor ⟨p.opened⟩ p.root) (h : Nat) : p'.opened ≤ room h ↔ p'.height ≤ h := by
  rw [hopened, hheight]
  unfold heightFor
  cases hr : p.root with
  | none =>
      rw [hp.untouched hr]
      exact iff_of_true (room_pos h) (Nat.zero_le h)
  | some t =>
      have hleast := hp.height h
      rw [height_root hr] at hleast
      have hfilled := (hp.tower t hr).filled.le
      dsimp only [Option.elim_some]
      split
      · rename_i hfits
        have hroom : p.opened < room t.height := LeafId.fits_iff.1 hfits
        constructor
        · intro hlt
          exact hleast.1 (Nat.le_of_succ_le hlt)
        · intro hle
          exact Nat.lt_of_lt_of_le hroom (room_mono hle)
      · rename_i hfits
        have hroom : room t.height ≤ p.opened := Nat.not_lt.1 fun hlt => hfits (LeafId.fits_iff.2 hlt)
        -- the tower is full, so just the heights above its own have room for one slot more
        constructor
        · intro hlt
          by_contra hle
          have := room_mono (show h ≤ t.height by omega)
          omega
        · intro hlt
          have := room_lt hlt
          omega

/-- **Opening the next slot keeps the tower as small as it can be.** -/
theorem Extent.openSlot_yields {p : Pool V} (hp : p.Extent) (hroom : p.opened < slotLimit) :
    p.openSlot.Yields fun (id, p') =>
      id = ⟨p.opened⟩ ∧ p'.Extent ∧ (∀ id, id.index < p.opened → p'.slot? id = p.slot? id) ∧
        p'.slot? ⟨p.opened⟩ = some (.vacant none) ∧ p'.leaf? = p.leaf? ∧
        p'.opened = p.opened + 1 ∧ p'.free = p.free ∧ p'.live = p.live := by
  refine ((Pool.openSlot_yields hp.toLaidOut hroom).with (openSlot_height p)).mono ?_
  rintro ⟨id, p'⟩ ⟨⟨hid, hlaid, hsame, hnew, hopened, hfree, hlive⟩, hheight⟩
  have hleaf := leaf?_openSlot hp.toLaidOut hlaid hsame hnew hopened
  refine ⟨hid, ⟨hlaid, by omega, ?_, hp.height_openSlot hopened hheight⟩, hsame, hnew, hleaf, hopened, hfree, hlive⟩
  exact hlaid.slot?_isSome_iff (by omega)

end Pool

end OrderedStore
