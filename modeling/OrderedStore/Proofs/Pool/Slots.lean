import Mathlib.Tactic
import OrderedStore.Proofs.Pool.Table

/-!
# Writing and opening slots

A pool is *laid out* when its tower is filled up to the number of slots ever opened and whatever its last
block holds beyond them is vacant. Writing an open slot changes that slot and no other; opening one adds
it, vacant, and leaves the others as they were, also when the tower has to grow.
-/

namespace OrderedStore

variable {V : Type}

/-- The slot numbered `id`, if the tower reaches it. -/
def Tower.slot? (t : Tower V) (id : LeafId) : Option (Slot V) :=
  if id.fits t.height then t.table.slot? id else none

/-- A tower in which exactly the slots below `n` are in use. -/
structure Tower.LaidOut (t : Tower V) (n : Nat) : Prop where
  filled : t.table.Filled n
  beyond : ∀ id slot, n ≤ id.index → t.slot? id = some slot → slot = .vacant none

namespace Tower

theorem slot?_of_lt {t : Tower V} {id : LeafId} (h : id.index < Table.room t.height) :
    t.slot? id = t.table.slot? id := if_pos (LeafId.fits_iff.2 h)

theorem slot?_of_le {t : Tower V} {id : LeafId} (h : Table.room t.height ≤ id.index) :
    t.slot? id = none := by
  refine if_neg (fun hf => ?_)
  exact absurd (LeafId.fits_iff.1 hf) (Nat.not_lt.mpr h)

theorem LaidOut.slot?_isSome {t : Tower V} {n : Nat} {id : LeafId} (ht : t.LaidOut n)
    (hid : id.index < n) : (t.slot? id).isSome := by
  have hroom := Nat.lt_of_lt_of_le hid ht.filled.le
  rw [slot?_of_lt hroom]
  exact ht.filled.slot?_isSome (by rwa [Nat.mod_eq_of_lt hroom])

theorem slot?_write {h : Nat} {t : Table V h} {id : LeafId} {slot : Slot V} {now : Stamp}
    (hid : ((⟨h, t⟩ : Tower V).slot? id).isSome) :
    (⟨h, t.write id slot now⟩ : Tower V).slot? = Function.update (⟨h, t⟩ : Tower V).slot? id (some slot) := by
  funext id'
  -- past its end a tower has no slots, so the number fits
  have hroom : id.index < Table.room h := by
    by_contra hge
    rw [slot?_of_le (Nat.not_lt.1 hge)] at hid
    exact absurd hid (by simp)
  by_cases heq : id' = id
  · subst heq
    rw [Function.update_self, slot?_of_lt hroom]
    rw [slot?_of_lt hroom] at hid
    exact Table.slot?_write_self hid
  · rw [Function.update_of_ne heq]
    rcases Nat.lt_or_ge id'.index (Table.room h) with hlt | hge
    · rw [slot?_of_lt hlt, slot?_of_lt hlt]
      refine Table.slot?_write_ne ?_
      rw [Nat.mod_eq_of_lt hroom, Nat.mod_eq_of_lt hlt]
      intro hindex
      exact heq (by cases id; cases id'; simp_all)
    · rw [slot?_of_le hge, slot?_of_le hge]

theorem LaidOut.write {h n : Nat} {t : Table V h} {id : LeafId} {slot : Slot V} {now : Stamp}
    (ht : (⟨h, t⟩ : Tower V).LaidOut n) (hid : id.index < n) :
    (⟨h, t.write id slot now⟩ : Tower V).LaidOut n where
  filled := ht.filled.write
  beyond := by
    intro id' slot' hle hs
    rw [slot?_write (ht.slot?_isSome hid), Function.update_of_ne (by rintro rfl; omega)] at hs
    exact ht.beyond id' slot' hle hs

/-! ## Growing -/

/-- A first block. -/
theorem laidOut_empty (now : Stamp) : (⟨0, Table.empty V now 0⟩ : Tower V).LaidOut 0 where
  filled := Table.filled_empty now 0
  beyond := by
    intro id slot _ hs
    unfold slot? at hs
    split at hs
    · exact Table.slot?_empty hs
    · simp at hs

/-- A full tower as the first child of a new page. -/
def raise (t : Tower V) (now : Stamp) : Tower V :=
  ⟨t.height + 1, (⟨now, #[t.table]⟩ : Page (Table V t.height))⟩

theorem slot?_raise (t : Tower V) (now : Stamp) : (t.raise now).slot? = t.slot? := by
  funext id
  have hsucc : Table.room (t.raise now).height = Table.room t.height * 32 := Table.room_succ t.height
  have hpos := Table.room_pos t.height
  rcases Nat.lt_or_ge id.index (Table.room (t.raise now).height) with hlt | hge
  · rw [slot?_of_lt hlt]
    change (#[t.table] : Array (Table V t.height))[id.branch t.height]?.bind (Table.slot? id) = _
    rw [LeafId.branch_eq, Nat.mod_eq_of_lt (Nat.div_lt_of_lt_mul (hsucc ▸ hlt))]
    -- the numbers that fitted before lead into the first child, the others past it
    rcases Nat.lt_or_ge id.index (Table.room t.height) with hlow | hhigh
    · rw [slot?_of_lt hlow, Nat.div_eq_of_lt hlow]
      rfl
    · have hone : 1 ≤ id.index / Table.room t.height := (Nat.one_le_div_iff hpos).2 hhigh
      rw [slot?_of_le hhigh, Array.getElem?_eq_none (by simpa using hone)]
      rfl
  · rw [slot?_of_le hge, slot?_of_le (by omega)]

theorem LaidOut.raise {t : Tower V} {now : Stamp} (ht : t.LaidOut (Table.room t.height)) :
    (t.raise now).LaidOut (Table.room t.height) where
  filled := by
    have hpos := Table.room_pos t.height
    refine Table.filled_succ.2 ⟨?_, ?_, ?_⟩
    · rw [Table.room_succ]
      omega
    · change 1 = _
      rw [Nat.add_comm, Nat.add_div_right _ hpos, Nat.div_eq_of_lt (by omega)]
    · intro i child hc
      change (#[t.table] : Array (Table V t.height))[i]? = some child at hc
      obtain ⟨hi, rfl⟩ := Array.getElem?_eq_some_iff.1 hc
      obtain rfl : i = 0 := by simpa using hi
      simpa using ht.filled
  beyond := by
    rw [slot?_raise]
    exact ht.beyond

/-- Extending a tower opens the next slot, vacant, and keeps the slots before it. -/
theorem LaidOut.extend {h n : Nat} {t : Table V h} (ht : (⟨h, t⟩ : Tower V).LaidOut n) (now : Stamp)
    (hn : n < Table.room h) :
    ∃ t', t.extend ⟨n⟩ now = .ok t' ∧ (⟨h, t'⟩ : Tower V).LaidOut (n + 1) ∧
      (∀ id, id.index < n → (⟨h, t'⟩ : Tower V).slot? id = (⟨h, t⟩ : Tower V).slot? id) ∧
      (⟨h, t'⟩ : Tower V).slot? ⟨n⟩ = some (.vacant none) := by
  obtain ⟨t', hx, hf, hext⟩ := Table.extend_ok ⟨n⟩ now ht.filled hn (Nat.mod_eq_of_lt hn)
  have hslot : ∀ id, (⟨h, t'⟩ : Tower V).slot? id = (⟨h, t⟩ : Tower V).slot? id ∨
      ((⟨h, t⟩ : Tower V).slot? id = none ∧ (⟨h, t'⟩ : Tower V).slot? id = some (.vacant none)) := by
    intro id
    rcases Nat.lt_or_ge id.index (Table.room h) with hlt | hge
    · rw [slot?_of_lt hlt, slot?_of_lt hlt]
      exact hext id
    · rw [slot?_of_le hge, slot?_of_le hge]
      exact Or.inl rfl
  -- a slot past the old ones was there already, vacant, or has just come
  have hbeyond : ∀ id slot, n ≤ id.index → (⟨h, t'⟩ : Tower V).slot? id = some slot → slot = .vacant none := by
    intro id slot hle hs
    rcases hslot id with hsame | ⟨-, hnew⟩
    · exact ht.beyond id slot hle (hsame ▸ hs)
    · rw [hnew] at hs
      exact (Option.some.inj hs).symm
  have ht' : (⟨h, t'⟩ : Tower V).LaidOut (n + 1) := ⟨hf, fun id slot hle => hbeyond id slot (by omega)⟩
  refine ⟨t', hx, ht', ?_, ?_⟩
  · intro id hid
    rcases hslot id with hsame | ⟨hnone, -⟩
    · exact hsame
    · have := ht.slot?_isSome hid
      simp [hnone] at this
  · have hsome : ((⟨h, t'⟩ : Tower V).slot? ⟨n⟩).isSome := ht'.slot?_isSome (Nat.lt_succ_self n)
    obtain ⟨slot, hs⟩ := Option.isSome_iff_exists.1 hsome
    rw [hs, hbeyond _ slot (Nat.le_refl n) hs]

end Tower

namespace Pool

open Edit

/-- The tower of a pool is laid out for the slots it has opened. -/
structure LaidOut (p : Pool V) : Prop where
  untouched : p.root = none → p.opened = 0
  tower : ∀ t, p.root = some t → t.LaidOut p.opened

theorem slot?_root {p : Pool V} {t : Tower V} (h : p.root = some t) : p.slot? = t.slot? := by
  funext id
  unfold slot?
  rw [h]
  rfl

theorem slot?_none {p : Pool V} (h : p.root = none) (id : LeafId) : p.slot? id = none := by
  unfold slot?
  rw [h]
  rfl

theorem height_root {p : Pool V} {t : Tower V} (h : p.root = some t) : p.height = t.height := by
  unfold height
  rw [h]
  rfl

theorem height_none {p : Pool V} (h : p.root = none) : p.height = 0 := by
  unfold height
  rw [h]
  rfl

theorem LaidOut.slot?_isSome {p : Pool V} {id : LeafId} (hp : p.LaidOut) (hid : id.index < p.opened) :
    (p.slot? id).isSome := by
  cases hr : p.root with
  | none => exact absurd (hp.untouched hr) (by omega)
  | some t => rw [slot?_root hr]; exact (hp.tower t hr).slot?_isSome hid

theorem LaidOut.beyond {p : Pool V} {id : LeafId} {slot : Slot V} (hp : p.LaidOut)
    (hid : p.opened ≤ id.index) (hs : p.slot? id = some slot) : slot = .vacant none := by
  cases hr : p.root with
  | none => rw [slot?_none hr] at hs; simp at hs
  | some t => rw [slot?_root hr] at hs; exact (hp.tower t hr).beyond id slot hid hs

theorem laidOut_empty : (empty : Pool V).LaidOut where
  untouched := fun _ => rfl
  tower := by intro t ht; simp [empty] at ht

/-- **Writing a slot changes that slot alone**, in any pool that has it. -/
theorem write_sets {p : Pool V} {id : LeafId} {slot : Slot V} (hid : (p.slot? id).isSome) :
    (p.write id slot).Yields fun p' =>
      p'.slot? = Function.update p.slot? id (some slot) ∧ p'.opened = p.opened ∧ p'.free = p.free ∧
        p'.live = p.live := by
  obtain ⟨⟨h, t⟩, hr⟩ : ∃ t, p.root = some t := by
    cases hr : p.root with
    | none =>
        rw [slot?_none hr] at hid
        exact absurd hid (by simp)
    | some t => exact ⟨t, rfl⟩
  rw [slot?_root hr] at hid
  unfold write
  rw [hr]
  refine Yields.bind_draw fun now => Yields.pure ⟨?_, rfl, rfl, rfl⟩
  rw [slot?_root hr, slot?_root rfl]
  exact Tower.slot?_write hid

theorem LaidOut.write_ensures {p : Pool V} {id : LeafId} {slot : Slot V} (hp : p.LaidOut)
    (hid : id.index < p.opened) : (p.write id slot).Ensures LaidOut := by
  unfold write
  cases hr : p.root with
  | none => exact Ensures.pure hp
  | some t =>
      have ht := hp.tower t hr
      refine Ensures.after fun now => Ensures.pure ⟨by simp, ?_⟩
      intro t' ht'
      obtain rfl := Option.some.inj ht'
      exact ht.write hid

/-- Writing an open slot keeps the tower laid out. -/
theorem write_yields {p : Pool V} {id : LeafId} {slot : Slot V} (hp : p.LaidOut)
    (hid : id.index < p.opened) :
    (p.write id slot).Yields fun p' =>
      p'.LaidOut ∧ p'.slot? = Function.update p.slot? id (some slot) ∧
        p'.opened = p.opened ∧ p'.free = p.free ∧ p'.live = p.live :=
  ((write_sets (hp.slot?_isSome hid)).with (hp.write_ensures hid)).mono fun _ h => ⟨h.2, h.1⟩

/-- What is left of growing once there is a tower with room for the next slot. -/
theorem growWith_yields {p : Pool V} {t : Tower V} (ht : t.LaidOut p.opened) (hroom : p.opened < Table.room t.height)
    (hslots : ∀ id, id.index < p.opened → t.slot? id = p.slot? id) :
    (do
      let now ← draw (t.height + 1)
      let table ← t.table.extend ⟨p.opened⟩ now
      pure (⟨t.height, table⟩ : Tower V) : Edit (Tower V)).Yields fun t => t.LaidOut (p.opened + 1) ∧
        (∀ id, id.index < p.opened → t.slot? id = p.slot? id) ∧
        t.slot? ⟨p.opened⟩ = some (.vacant none) := by
  refine Yields.bind_draw fun now => ?_
  obtain ⟨t', hx, ht', hsame, hnew⟩ := ht.extend now hroom
  refine Yields.bind_lift hx ?_
  exact Yields.pure ⟨ht', fun id hid => (hsame id hid).trans (hslots id hid), hnew⟩

/-- The tower in which the next slot is opened is the one there is, raised if it is full. -/
theorem grow_yields {p : Pool V} (hp : p.LaidOut) :
    (grow p.root ⟨p.opened⟩).Yields fun t => t.LaidOut (p.opened + 1) ∧
      (∀ id, id.index < p.opened → t.slot? id = p.slot? id) ∧
      t.slot? ⟨p.opened⟩ = some (.vacant none) := by
  unfold grow
  cases hr : p.root with
  | none =>
      have hzero := hp.untouched hr
      refine Yields.bind_fresh fun now => ?_
      refine growWith_yields (t := ⟨0, Table.empty V now 0⟩) ?_ ?_ ?_
      · rw [hzero]
        exact Tower.laidOut_empty now
      · rw [hzero]
        exact Table.room_pos 0
      · intro id hid
        omega
  | some t =>
      have ht := hp.tower t hr
      dsimp only
      split
      · rename_i hfits
        refine growWith_yields ht (LeafId.fits_iff.1 hfits) ?_
        intro id _
        rw [slot?_root hr]
      · rename_i hfits
        -- a filled tower without room for the next slot is full, so it can become a child
        have hfull : p.opened = Table.room t.height := by
          have hge := Nat.not_lt.1 fun hlt => hfits (LeafId.fits_iff.2 hlt)
          exact Nat.le_antisymm ht.filled.le hge
        refine Yields.bind_fresh fun now => ?_
        refine growWith_yields (t := t.raise now) ?_ ?_ ?_
        · rw [hfull] at ht ⊢
          exact ht.raise
        · have hpos := Table.room_pos t.height
          have hsucc : Table.room (t.raise now).height = Table.room t.height * 32 :=
            Table.room_succ t.height
          omega
        · intro id _
          rw [slot?_root hr, Tower.slot?_raise]

/-- **Opening the next slot.** It is vacant, and the slots before it are as they were. -/
theorem openSlot_yields {p : Pool V} (hp : p.LaidOut) (hroom : p.opened < slotLimit) :
    p.openSlot.Yields fun (id, p') =>
      id = ⟨p.opened⟩ ∧ p'.LaidOut ∧ (∀ id, id.index < p.opened → p'.slot? id = p.slot? id) ∧
        p'.slot? ⟨p.opened⟩ = some (.vacant none) ∧
        p'.opened = p.opened + 1 ∧ p'.free = p.free ∧ p'.live = p.live := by
  unfold openSlot
  rw [if_neg (by omega)]
  refine Yields.bind (grow_yields hp) ?_
  rintro t ⟨ht, hsame, hnew⟩
  refine Yields.pure ⟨rfl, ⟨by simp, ?_⟩, ?_, ?_, rfl, rfl, rfl⟩
  · intro t' ht'
    obtain rfl := Option.some.inj ht'
    exact ht
  · rw [slot?_root rfl]
    exact hsame
  · rw [slot?_root rfl]
    exact hnew

/-- A pool that has handed out every slot number opens no more. -/
theorem openSlot_faults {p : Pool V} (hfull : slotLimit ≤ p.opened) :
    p.openSlot.Faults .poolExhausted := by
  unfold openSlot
  rw [if_pos hfull]
  exact Faults.bind Faults.throw

end Pool

end OrderedStore
