import Mathlib.Tactic
import OrderedStore.Proofs.Edit
import OrderedStore.Pool.Basic

/-!
# What a tower of tables holds

A slot is found by reading its number in mixed base, so a table with `h` page levels tells two numbers
apart exactly when they differ modulo the number of its slots. From this follows that a write changes one
slot. A table is *filled* up to `n` when its first `n` slots exist and its pages hold no child beyond
them; a filled table can always be extended by the slot that comes next.
-/

namespace OrderedStore

variable {V : Type}

/-- How many slots a table with `h` page levels has room for. -/
def Table.room (h : Nat) : Nat := 64 * 32 ^ h

theorem Table.room_succ (h : Nat) : room (h + 1) = room h * 32 := by
  unfold room
  rw [pow_succ, mul_assoc]

theorem Table.room_pos (h : Nat) : 0 < room h := by
  unfold room
  positivity

namespace LeafId

theorem fits_iff {id : LeafId} {h : Nat} : id.fits h = true ↔ id.index < Table.room h := by
  simp [fits, Table.room]

theorem branch_eq (id : LeafId) (h : Nat) : id.branch h = id.index / Table.room h % 32 := rfl

/-- A number is its place within a child together with the child's place in its page. -/
theorem mod_room_succ (id : LeafId) (h : Nat) :
    id.index % Table.room (h + 1) = id.index % Table.room h + Table.room h * id.branch h := by
  rw [Table.room_succ, Nat.mod_mul, branch_eq]

end LeafId

namespace Table

/-- The slots of a block. -/
def slots (t : Table V 0) : Vector (Slot V) 64 := Block.slots t

/-- The children of a page. -/
def children {h : Nat} (t : Table V (h + 1)) : Array (Table V h) := Page.children t

theorem slot?_zero (id : LeafId) (t : Table V 0) : t.slot? id = some (getElem t.slots id.place id.place.isLt) := rfl

theorem slot?_succ {h : Nat} (id : LeafId) (t : Table V (h + 1)) :
    t.slot? id = t.children[id.branch h]?.bind (slot? id) := rfl

theorem slots_write (id : LeafId) (slot : Slot V) (now : Stamp) (t : Table V 0) :
    (t.write id slot now).slots = t.slots.set id.place slot id.place.isLt := rfl

theorem children_write {h : Nat} (id : LeafId) (slot : Slot V) (now : Stamp) (t : Table V (h + 1)) :
    (t.write id slot now).children = t.children.modify (id.branch h) (write id slot now) := rfl

theorem slots_empty (now : Stamp) : (empty V now 0).slots = Vector.replicate 64 (.vacant none) := rfl

theorem children_empty (now : Stamp) (h : Nat) : (empty V now (h + 1)).children = #[] := rfl

/-! ## Writing a slot -/

theorem slot?_write_self {id : LeafId} {slot : Slot V} {now : Stamp} {h : Nat} {t : Table V h}
    (hs : (t.slot? id).isSome) : (t.write id slot now).slot? id = some slot := by
  induction h with
  | zero => simp [slot?_zero, slots_write]
  | succ h ih =>
      rw [slot?_succ] at hs
      rw [slot?_succ, children_write, Array.getElem?_modify, if_pos rfl]
      cases hc : t.children[id.branch h]? with
      | none => simp [hc] at hs
      | some child =>
          rw [hc] at hs
          exact ih hs

theorem slot?_write_ne {id id' : LeafId} {slot : Slot V} {now : Stamp} {h : Nat} {t : Table V h}
    (hne : id.index % room h ≠ id'.index % room h) : (t.write id slot now).slot? id' = t.slot? id' := by
  induction h with
  | zero =>
      have hplace : (id.place : Nat) ≠ id'.place := by simpa [LeafId.place, room] using hne
      rw [slot?_zero, slot?_zero, slots_write]
      exact congrArg some (Vector.getElem_set_ne _ _ hplace)
  | succ h ih =>
      rw [slot?_succ, slot?_succ, children_write, Array.getElem?_modify]
      split
      · rename_i hb
        -- in one child the two numbers still differ, or they would not differ here
        have hrest : id.index % room h ≠ id'.index % room h := by
          intro he
          apply hne
          rw [LeafId.mod_room_succ, LeafId.mod_room_succ, he, hb]
        cases t.children[id'.branch h]? with
        | none => rfl
        | some child => exact ih hrest
      · rfl

/-! ## Filled tables -/

/-- The first `n` slots exist, and no page holds a child beyond them. -/
def Filled : {h : Nat} → Table V h → Nat → Prop
  | 0, _, n => n ≤ room 0
  | h + 1, t, n =>
    n ≤ room (h + 1) ∧ t.children.size = (n + (room h - 1)) / room h ∧
      ∀ (i : Nat) (child : Table V h), t.children[i]? = some child →
        child.Filled (min (room h) (n - i * room h))

theorem filled_zero {t : Table V 0} {n : Nat} : t.Filled n ↔ n ≤ room 0 := Iff.rfl

theorem filled_succ {h : Nat} {t : Table V (h + 1)} {n : Nat} :
    t.Filled n ↔ n ≤ room (h + 1) ∧ t.children.size = (n + (room h - 1)) / room h ∧
      ∀ (i : Nat) (child : Table V h), t.children[i]? = some child →
        child.Filled (min (room h) (n - i * room h)) := Iff.rfl

theorem Filled.le {h : Nat} {t : Table V h} {n : Nat} (hf : t.Filled n) : n ≤ room h := by
  cases h with
  | zero => exact filled_zero.1 hf
  | succ h => exact (filled_succ.1 hf).1

theorem filled_empty (now : Stamp) (h : Nat) : (empty V now h).Filled 0 := by
  cases h with
  | zero => exact filled_zero.2 (Nat.zero_le _)
  | succ h =>
      refine filled_succ.2 ⟨Nat.zero_le _, ?_, ?_⟩
      · have := room_pos h
        exact (Nat.div_eq_of_lt (by omega)).symm
      · intro i child hc
        simp [children_empty] at hc

/-- **A filled table has its slots.** -/
theorem Filled.slot?_isSome {h : Nat} {t : Table V h} {n : Nat} {id : LeafId} (hf : t.Filled n)
    (hid : id.index % room h < n) : (t.slot? id).isSome := by
  induction h generalizing n with
  | zero => rfl
  | succ h ih =>
      obtain ⟨-, hsize, hchild⟩ := filled_succ.1 hf
      have hpos := room_pos h
      rw [LeafId.mod_room_succ, mul_comm] at hid
      -- the child is there because the page is filled past its first slot
      have hlt : id.branch h < t.children.size := by
        rw [hsize, Nat.lt_div_iff_mul_lt hpos]
        omega
      have hc := Array.getElem?_eq_getElem hlt
      rw [slot?_succ, hc]
      refine ih (hchild _ _ hc) (lt_min (Nat.mod_lt _ hpos) ?_)
      omega

/-- Writing a slot makes no table and drops none. -/
theorem Filled.write {id : LeafId} {slot : Slot V} {now : Stamp} {h : Nat} {t : Table V h} {n : Nat}
    (hf : t.Filled n) : (t.write id slot now).Filled n := by
  induction h generalizing n with
  | zero => exact hf
  | succ h ih =>
      obtain ⟨hn, hsize, hchild⟩ := filled_succ.1 hf
      refine filled_succ.2 ⟨hn, ?_, ?_⟩
      · rw [children_write, Array.size_modify, hsize]
      · intro i child hc
        rw [children_write, Array.getElem?_modify] at hc
        split at hc
        · obtain ⟨old, hold, rfl⟩ := Option.map_eq_some_iff.1 hc
          exact ih (hchild i old hold)
        · exact hchild i child hc

/-! ## Opening the next slot -/

theorem slot?_empty {id : LeafId} {slot : Slot V} {now : Stamp} {h : Nat}
    (hs : (empty V now h).slot? id = some slot) : slot = .vacant none := by
  cases h with
  | zero => simpa [slot?_zero, slots_empty] using hs.symm
  | succ h => simp [slot?_succ, children_empty] at hs

/-- All that extending a table may do to a slot: leave it as it is, or add it vacant. -/
def Extends {h : Nat} (t t' : Table V h) : Prop :=
  ∀ id, t'.slot? id = t.slot? id ∨ (t.slot? id = none ∧ t'.slot? id = some (.vacant none))

/-- The next slot of a filled page lies in its last child, or in a child still to be added. -/
theorem filled_next {h n : Nat} {id : LeafId} (hid : id.index % room (h + 1) = n) :
    id.branch h = n / room h ∧ id.index % room h = n % room h ∧
      (n + (room h - 1)) / room h = n / room h + (if n % room h = 0 then 0 else 1) := by
  have hpos := room_pos h
  rw [LeafId.mod_room_succ] at hid
  have hlt : id.index % room h < room h := Nat.mod_lt _ hpos
  subst hid
  refine ⟨?_, ?_, ?_⟩
  · rw [Nat.add_mul_div_left _ _ hpos, Nat.div_eq_of_lt hlt, zero_add]
  · rw [Nat.add_mul_mod_self_left, Nat.mod_mod]
  · rw [Nat.add_mul_mod_self_left, Nat.mod_mod, Nat.add_mul_div_left _ _ hpos, Nat.div_eq_of_lt hlt,
      Nat.add_right_comm, Nat.add_mul_div_left _ _ hpos]
    split
    · rw [Nat.div_eq_of_lt (by omega)]
      omega
    · rw [show id.index % room h + (room h - 1) = id.index % room h - 1 + room h by omega,
        Nat.add_div_right _ hpos, Nat.div_eq_of_lt (by omega)]
      omega

/-- The children of a page with room for a child at `i`: one is added if `i` is just past the end. -/
def grownChildren {h : Nat} (t : Table V (h + 1)) (now : Stamp) (i : Nat) : Array (Table V h) :=
  if i = t.children.size then t.children.push (empty V now h) else t.children

theorem extend_succ {h : Nat} {t : Table V (h + 1)} {id : LeafId} {now : Stamp} {child child' : Table V h}
    (hc : (t.grownChildren now (id.branch h))[id.branch h]? = some child)
    (hx : child.extend id now = .ok child') :
    ∃ t' : Table V (h + 1), t.extend id now = .ok t' ∧
      t'.children = (t.grownChildren now (id.branch h)).setIfInBounds (id.branch h) child' := by
  refine ⟨(⟨now + (h + 1), (t.grownChildren now (id.branch h)).setIfInBounds (id.branch h) child'⟩ :
    Page (Table V h)), ?_, rfl⟩
  unfold grownChildren at hc ⊢
  unfold children at hc ⊢
  simp only [extend, hc, hx]
  rfl

theorem grownChildren_ne {h : Nat} (t : Table V (h + 1)) (now : Stamp) {i j : Nat} (hij : j ≠ i) :
    (t.grownChildren now i)[j]? = t.children[j]? := by
  unfold grownChildren
  split
  · rw [Array.getElem?_push, if_neg (by omega)]
  · rfl

/-- The child that the next slot lies in: there already, or added empty. -/
theorem Filled.next_child {h n : Nat} {t : Table V (h + 1)} {id : LeafId} (now : Stamp) (hf : t.Filled n)
    (hid : id.index % room (h + 1) = n) :
    ∃ child : Table V h, (t.grownChildren now (id.branch h))[id.branch h]? = some child ∧
      child.Filled (n % room h) ∧ (t.grownChildren now (id.branch h)).size = n / room h + 1 ∧
      ∀ id', t.children[id.branch h]?.bind (slot? id') = child.slot? id' ∨
        (t.children[id.branch h]?.bind (slot? id') = none ∧
          ∀ slot, child.slot? id' = some slot → slot = .vacant none) := by
  obtain ⟨-, hsize, hchild⟩ := filled_succ.1 hf
  obtain ⟨hbranch, -, hceil⟩ := filled_next hid
  have hpos := room_pos h
  unfold grownChildren
  by_cases hz : n % room h = 0
  · rw [hceil, if_pos hz, add_zero] at hsize
    -- all children are full, so the next slot needs another one
    have hnone : t.children[id.branch h]? = none :=
      Array.getElem?_eq_none (by omega)
    refine ⟨empty V now h, ?_, ?_, ?_, ?_⟩
    · rw [if_pos (by omega), hbranch, ← hsize, Array.getElem?_push_size]
    · rw [hz]
      exact filled_empty now h
    · rw [if_pos (by omega), Array.size_push, hsize]
    · intro id'
      exact Or.inr ⟨by rw [hnone]; rfl, fun slot hs => slot?_empty hs⟩
  · rw [hceil, if_neg hz] at hsize
    have hlt : id.branch h < t.children.size := by omega
    have hc := Array.getElem?_eq_getElem hlt
    refine ⟨t.children[id.branch h], ?_, ?_, ?_, ?_⟩
    · rw [if_neg (by omega), hc]
    · -- the last child has what the full ones before it leave over
      have hmin : min (room h) (n - id.branch h * room h) = n % room h := by
        have := Nat.mod_lt n hpos
        rw [hbranch, mul_comm, ← Nat.mod_eq_sub_mul_div]
        omega
      rw [← hmin]
      exact hchild _ _ hc
    · rw [if_neg (by omega), hsize]
    · intro id'
      rw [hc]
      exact Or.inl rfl

/-- A page is filled by one slot more if the child of that slot is. -/
theorem Filled.of_child {h n : Nat} {t t' : Table V (h + 1)} {id : LeafId} {now : Stamp} {child' : Table V h}
    (hf : t.Filled n) (hn : n < room (h + 1)) (hid : id.index % room (h + 1) = n)
    (hsize : (t.grownChildren now (id.branch h)).size = n / room h + 1)
    (hcs : t'.children = (t.grownChildren now (id.branch h)).setIfInBounds (id.branch h) child')
    (hcf : child'.Filled (n % room h + 1)) : t'.Filled (n + 1) := by
  have hpos := room_pos h
  obtain ⟨hbranch, -, -⟩ := filled_next hid
  obtain ⟨-, -, hchild⟩ := filled_succ.1 hf
  refine filled_succ.2 ⟨hn, ?_, ?_⟩
  · -- there are as many children as the slots with the new one need
    rw [hcs, Array.size_setIfInBounds, hsize,
      show n + 1 + (room h - 1) = n + room h by omega, Nat.add_div_right _ hpos]
  · intro i c hi
    rw [hcs, Array.getElem?_setIfInBounds] at hi
    by_cases hib : id.branch h = i
    · rw [if_pos hib, if_pos (by omega)] at hi
      obtain rfl := Option.some.inj hi
      have hmin : min (room h) (n + 1 - i * room h) = n % room h + 1 := by
        have := Nat.mod_lt n hpos
        have := Nat.div_add_mod n (room h)
        rw [← hib, hbranch, mul_comm]
        omega
      rw [hmin]
      exact hcf
    · -- an earlier child is full, so one slot more changes nothing for it
      rw [if_neg hib] at hi
      have hlt := (Array.getElem?_eq_some_iff.1 hi).1
      rw [grownChildren_ne t now (Ne.symm hib)] at hi
      have hfull : (i + 1) * room h ≤ n := Nat.mul_le_of_le_div _ _ _ (by omega)
      rw [add_mul, one_mul] at hfull
      have := hchild i c hi
      rwa [min_eq_left (by omega)] at this ⊢

/-- A page does to its slots what its child does. -/
theorem Extends.of_child {h : Nat} {t t' : Table V (h + 1)} {now : Stamp} {i : Nat} {child child' : Table V h}
    (hi : i < (t.grownChildren now i).size) (hcs : t'.children = (t.grownChildren now i).setIfInBounds i child')
    (hslots : ∀ id, t.children[i]?.bind (slot? id) = child.slot? id ∨
      (t.children[i]?.bind (slot? id) = none ∧ ∀ slot, child.slot? id = some slot → slot = .vacant none))
    (hext : child.Extends child') : t.Extends t' := by
  intro id
  rw [slot?_succ, slot?_succ, hcs, Array.getElem?_setIfInBounds]
  by_cases hib : i = id.branch h
  · rw [if_pos hib, if_pos hi, ← hib, Option.bind_some]
    rcases hslots id with hold | ⟨hold, hvacant⟩
    · rw [hold]
      exact hext id
    · -- the child is new, so whatever it holds has been added vacant
      rw [hold]
      rcases hext id with hsame | ⟨-, hnew⟩
      · cases hs : child.slot? id with
        | none => exact Or.inl (hsame.trans hs)
        | some slot => exact Or.inr ⟨rfl, by rw [hsame, hs, hvacant slot hs]⟩
      · exact Or.inr ⟨rfl, hnew⟩
  · rw [if_neg hib, grownChildren_ne t now (Ne.symm hib)]
    exact Or.inl rfl

/-- **A filled table can be extended by the slot that comes next.** -/
theorem extend_ok (id : LeafId) (now : Stamp) {h : Nat} {t : Table V h} {n : Nat} (hf : t.Filled n)
    (hn : n < room h) (hid : id.index % room h = n) :
    ∃ t', t.extend id now = .ok t' ∧ t'.Filled (n + 1) ∧ t.Extends t' := by
  induction h generalizing n with
  | zero => exact ⟨_, rfl, hn, fun _ => Or.inl rfl⟩
  | succ h ih =>
      obtain ⟨hbranch, hrest, -⟩ := filled_next hid
      obtain ⟨child, hc, hcf, hsize, hslots⟩ := hf.next_child now hid
      obtain ⟨child', hx, hcf', hext⟩ := ih hcf (Nat.mod_lt _ (room_pos h)) hrest
      obtain ⟨t', ht', hcs⟩ := extend_succ hc hx
      refine ⟨t', ht', hf.of_child hn hid hsize hcs hcf', Extends.of_child ?_ hcs hslots hext⟩
      omega

end Table

end OrderedStore
