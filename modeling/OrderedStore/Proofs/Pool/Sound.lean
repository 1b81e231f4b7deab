import Mathlib.Data.List.Perm.Basic
import Mathlib.Tactic
import OrderedStore.Proofs.Pool.Slots

/-!
# Sound pools

Seen from outside, a pool is a partial function from slot numbers to leaves. It is *sound* when the free
list runs through exactly the open slots that hold no leaf and the live count is the number of the others.
The main statements say what the three writes do to that function: `modify` changes one leaf, `put` adds
one under a number that led nowhere, `vacate` takes one away. None of them faults on a sound pool, except
that `put` has no slot to give once as many leaves are live as there are slot numbers.
-/

namespace OrderedStore.Pool

open Edit

variable {V : Type}

/-- The free list: vacant slots, each holding the next one, from `link` to the end. -/
def FreeRun (slot? : LeafId → Option (Slot V)) : Link → List LeafId → Prop
  | link, [] => link = none
  | link, id :: ids => link = some id ∧ ∃ next, slot? id = some (.vacant next) ∧ FreeRun slot? next ids

theorem FreeRun.congr {f g : LeafId → Option (Slot V)} {ids : List LeafId} {link : Link}
    (h : FreeRun f link ids) (hfg : ∀ id ∈ ids, g id = f id) : FreeRun g link ids := by
  induction ids generalizing link with
  | nil => exact h
  | cons id ids ih =>
      obtain ⟨hlink, next, hs, hrest⟩ := h
      refine ⟨hlink, next, ?_, ih hrest fun id' hid' => hfg id' (List.mem_cons_of_mem _ hid')⟩
      rw [hfg id List.mem_cons_self, hs]

/-- The free list runs on through the slots that a write does not go to. -/
theorem FreeRun.update {f g : LeafId → Option (Slot V)} {ids : List LeafId} {link : Link} {id : LeafId}
    {slot : Option (Slot V)} (h : FreeRun f link ids) (hg : g = Function.update f id slot) (hid : id ∉ ids) :
    FreeRun g link ids := by
  refine h.congr fun id' hid' => ?_
  rw [hg, Function.update_of_ne]
  rintro rfl
  exact hid hid'

/-- A pool whose free list and live count are right. -/
structure Sound (p : Pool V) : Prop extends p.LaidOut where
  opened_le : p.opened ≤ slotLimit
  /-- The free list holds the open slots without a leaf, each once; the other open slots are live. -/
  free : ∃ ids, FreeRun p.slot? p.free ids ∧ ids.Nodup ∧
    (∀ id, id ∈ ids ↔ id.index < p.opened ∧ p.leaf? id = none) ∧ p.live + ids.length = p.opened

theorem sound_empty : (empty : Pool V).Sound where
  toLaidOut := laidOut_empty
  opened_le := Nat.zero_le _
  free := ⟨[], rfl, List.nodup_nil, by simp [empty], rfl⟩

/-- No more leaves are live than there are slot numbers. -/
theorem Sound.live_le {p : Pool V} (hp : p.Sound) : p.live ≤ slotLimit := by
  obtain ⟨ids, -, -, -, hcount⟩ := hp.free
  have hle := hp.opened_le
  omega

/-! ## Reading -/

theorem leaf?_eq_some_iff {p : Pool V} {id : LeafId} {leaf : Leaf V} :
    p.leaf? id = some leaf ↔ p.slot? id = some (.live leaf) := by
  unfold leaf?
  cases p.slot? id with
  | none => simp
  | some slot => cases slot <;> simp [Slot.leaf?]

theorem leaf?_eq_none_of_vacant {p : Pool V} {id : LeafId} {next : Link}
    (h : p.slot? id = some (.vacant next)) : p.leaf? id = none := by
  unfold leaf?
  rw [h]
  rfl

/-- A change of one slot is a change of one leaf. -/
theorem leaf?_update {p p' : Pool V} {id : LeafId} {slot : Slot V}
    (h : p'.slot? = Function.update p.slot? id (some slot)) :
    p'.leaf? = Function.update p.leaf? id slot.leaf? := by
  funext id'
  unfold leaf?
  rw [h]
  by_cases heq : id' = id
  · subst heq
    simp
  · simp [heq]

theorem LaidOut.index_lt {p : Pool V} {id : LeafId} {leaf : Leaf V} (hp : p.LaidOut)
    (h : p.leaf? id = some leaf) : id.index < p.opened := by
  by_contra hge
  have := hp.beyond (Nat.not_lt.1 hge) (leaf?_eq_some_iff.1 h)
  simp at this

theorem get_ok {p : Pool V} {id : LeafId} {leaf : Leaf V} (h : p.leaf? id = some leaf) :
    p.get (some id) = .ok leaf := by
  unfold get
  rw [Option.bind_some, h]

theorem get_eq_ok {p : Pool V} {link : Link} {leaf : Leaf V} (h : p.get link = .ok leaf) :
    ∃ id, link = some id ∧ p.leaf? id = some leaf := by
  unfold get at h
  split at h
  · rename_i found hfound
    obtain rfl := Except.ok.inj h
    exact Option.bind_eq_some_iff.1 hfound
  · cases h

theorem nextOf_ok {p : Pool V} {id : LeafId} {leaf : Leaf V} (h : p.leaf? id = some leaf) :
    p.nextOf (some id) = .ok leaf.next := by
  unfold nextOf
  rw [get_ok h]
  rfl

theorem prevOf_ok {p : Pool V} {id : LeafId} {leaf : Leaf V} (h : p.leaf? id = some leaf) :
    p.prevOf (some id) = .ok leaf.prev := by
  unfold prevOf
  rw [get_ok h]
  rfl

/-- A leaf is in a slot that the tower has room for. -/
theorem index_lt_capacity {p : Pool V} {id : LeafId} (h : (p.leaf? id).isSome) : id.index < p.capacity := by
  unfold leaf? slot? at h
  unfold capacity
  cases hroot : p.root with
  | none => simp [hroot] at h
  | some t =>
      by_cases hfits : id.fits t.height = true
      · exact of_decide_eq_true hfits
      · simp [hroot, hfits] at h

theorem index_injective : Function.Injective LeafId.index := by
  intro a b h
  cases a
  cases b
  exact congrArg LeafId.mk h

/-- However many leaves can be named, the tower has room for them. -/
theorem length_le_capacity {p : Pool V} {ids : List LeafId} (hnd : ids.Nodup)
    (hids : ∀ id ∈ ids, (p.leaf? id).isSome) : ids.length ≤ p.capacity := by
  have hndall : (ids.map LeafId.index).Nodup := hnd.map index_injective
  have hsub : ids.map LeafId.index ⊆ List.range p.capacity := by
    intro i hi
    obtain ⟨id, hid, rfl⟩ := List.mem_map.1 hi
    exact List.mem_range.2 (index_lt_capacity (hids id hid))
  have hlen := (List.subperm_of_subset hndall hsub).length_le
  rwa [List.length_map, List.length_range] at hlen

/-- However many leaves can be named, no fewer are counted. -/
theorem Sound.length_le_live {p : Pool V} (hp : p.Sound) {ids : List LeafId} (hnd : ids.Nodup)
    (hids : ∀ id ∈ ids, (p.leaf? id).isSome) : ids.length ≤ p.live := by
  obtain ⟨free, -, hfree, hmem, hcount⟩ := hp.free
  -- live slots and free ones are different open slots, and there are only so many of those
  have hdisj : ids.Disjoint free := by
    intro id hid hfr
    have h1 := hids id hid
    rw [((hmem id).1 hfr).2] at h1
    simp at h1
  have hndall : ((ids ++ free).map LeafId.index).Nodup :=
    (List.nodup_append'.2 ⟨hnd, hfree, hdisj⟩).map index_injective
  have hsub : (ids ++ free).map LeafId.index ⊆ List.range p.opened := by
    intro i hi
    obtain ⟨id, hid, rfl⟩ := List.mem_map.1 hi
    rw [List.mem_range]
    rcases List.mem_append.1 hid with h | h
    · obtain ⟨leaf, hl⟩ := Option.isSome_iff_exists.1 (hids id h)
      exact hp.index_lt hl
    · exact ((hmem id).1 h).1
  have hlen := (List.subperm_of_subset hndall hsub).length_le
  rw [List.length_map, List.length_append, List.length_range] at hlen
  omega

/-- **The live count counts the leaves.** -/
theorem Sound.live_eq_length {p : Pool V} (hp : p.Sound) {ids : List LeafId} (hnd : ids.Nodup)
    (hids : ∀ id, id ∈ ids ↔ (p.leaf? id).isSome) : p.live = ids.length := by
  refine Nat.le_antisymm ?_ (hp.length_le_live hnd fun id => (hids id).1)
  obtain ⟨free, -, -, hmem, hcount⟩ := hp.free
  -- the other way round: every open slot is live or free
  have hsub : List.range p.opened ⊆ (ids ++ free).map LeafId.index := by
    intro i hi
    rw [List.mem_range] at hi
    refine List.mem_map.2 ⟨⟨i⟩, ?_, rfl⟩
    rw [List.mem_append, hids, hmem]
    cases hl : p.leaf? ⟨i⟩ with
    | none => exact Or.inr ⟨hi, rfl⟩
    | some leaf => exact Or.inl rfl
  have hlen := (List.subperm_of_subset List.nodup_range hsub).length_le
  rw [List.length_map, List.length_append, List.length_range] at hlen
  omega

/-- The live count is how many slots hold a leaf. -/
def CountsLive (p : Pool V) : Prop :=
  ∃ ids : List LeafId, ids.Nodup ∧ (∀ id, id ∈ ids ↔ (p.leaf? id).isSome) ∧ p.live = ids.length

/-- The slots that hold a leaf. -/
def liveIds (p : Pool V) : List LeafId :=
  ((List.range p.capacity).map LeafId.mk).filter fun id => (p.leaf? id).isSome

theorem mem_liveIds {p : Pool V} (id : LeafId) : id ∈ p.liveIds ↔ (p.leaf? id).isSome := by
  unfold liveIds
  rw [List.mem_filter, and_iff_right_iff_imp]
  exact fun hlive => List.mem_map.2 ⟨id.index, List.mem_range.2 (index_lt_capacity hlive), rfl⟩

theorem nodup_liveIds {p : Pool V} : p.liveIds.Nodup :=
  (List.nodup_range.map fun _ _ h => congrArg LeafId.index h).filter _

/-- The slots of a pool can be gone through, so it can be told whether it counts its leaves. -/
theorem countsLive_iff {p : Pool V} : p.CountsLive ↔ p.live = p.liveIds.length := by
  constructor
  · intro h
    obtain ⟨ids, hnd, hids, hcount⟩ := h
    have hperm : ids.Perm p.liveIds :=
      (List.perm_ext_iff_of_nodup hnd nodup_liveIds).2 fun id => (hids id).trans (mem_liveIds id).symm
    exact hcount.trans hperm.length_eq
  · intro h
    exact ⟨p.liveIds, nodup_liveIds, mem_liveIds, h⟩

instance (p : Pool V) : Decidable p.CountsLive := decidable_of_iff _ countsLive_iff.symm

theorem Sound.countsLive {p : Pool V} (hp : p.Sound) : p.CountsLive :=
  ⟨p.liveIds, nodup_liveIds, mem_liveIds, hp.live_eq_length nodup_liveIds mem_liveIds⟩

/-- No more leaves can be named than are counted. -/
theorem CountsLive.length_le_live {p : Pool V} (hp : p.CountsLive) {ids : List LeafId} (hnd : ids.Nodup)
    (hids : ∀ id ∈ ids, (p.leaf? id).isSome) : ids.length ≤ p.live := by
  obtain ⟨all, -, hall, hcount⟩ := hp
  have hsub : ids ⊆ all := fun id hid => (hall id).2 (hids id hid)
  have hle := (List.subperm_of_subset hnd hsub).length_le
  omega

/-- If as many leaves can be named as are counted, every live leaf is among them. -/
theorem CountsLive.mem_of_length {p : Pool V} (hp : p.CountsLive) {ids : List LeafId} (hnd : ids.Nodup)
    (hids : ∀ id ∈ ids, (p.leaf? id).isSome) (hlen : p.live = ids.length) {id : LeafId}
    (hid : (p.leaf? id).isSome) : id ∈ ids := by
  obtain ⟨all, -, hall, hcount⟩ := hp
  have hsub : ids ⊆ all := fun id' hid' => (hall id').2 (hids id' hid')
  have hperm := (List.subperm_of_subset hnd hsub).perm_of_length_le (hcount.symm.trans hlen).le
  exact hperm.mem_iff.2 ((hall id).2 hid)

/-! ## Writing -/

/-- **`modify` changes one live slot and nothing else**, in any pool. -/
theorem modify_sets {p : Pool V} {id : LeafId} {leaf : Leaf V} {f : Leaf V → Leaf V} (hl : p.leaf? id = some leaf) :
    (p.modify (some id) f).Yields fun p' =>
      p'.slot? = Function.update p.slot? id (some (.live (f leaf))) ∧ p'.opened = p.opened ∧ p'.free = p.free ∧
        p'.live = p.live := by
  unfold modify
  refine Yields.bind_lift (get_ok hl) ?_
  exact write_sets (by simp [leaf?_eq_some_iff.1 hl])

/-- **`vacate` frees one live slot and nothing else**, in any pool. -/
theorem vacate_sets {p : Pool V} {id : LeafId} {leaf : Leaf V} (hl : p.leaf? id = some leaf) :
    (p.vacate (some id)).Yields fun (old, p') =>
      old = leaf ∧ p'.slot? = Function.update p.slot? id (some (.vacant p.free)) ∧ p'.opened = p.opened ∧
        p'.free = some id ∧ p'.live = p.live - 1 := by
  have hs := leaf?_eq_some_iff.1 hl
  unfold vacate
  dsimp only
  rw [hs]
  refine Yields.bind (write_sets (by simp [hs])) ?_
  intro p' h
  obtain ⟨hslot, hopened, -, hlive⟩ := h
  exact Yields.pure ⟨rfl, hslot, hopened, rfl, congrArg (· - 1) hlive⟩

/-- Only a live leaf is ever changed, so of a change without a fault this is all there is to show. -/
theorem modify_ensures {p : Pool V} {link : Link} {f : Leaf V → Leaf V} {Q : Pool V → Prop}
    (h : ∀ id leaf, p.leaf? id = some leaf → (p.modify (some id) f).Ensures Q) : (p.modify link f).Ensures Q := by
  cases hget : p.get link with
  | error fault =>
      intro now p' next hrun
      unfold modify at hrun
      rw [hget] at hrun
      cases hrun
  | ok leaf =>
      obtain ⟨id, rfl, hl⟩ := get_eq_ok hget
      exact h id leaf hl

/-- Only a live leaf is ever freed. -/
theorem vacate_ensures {p : Pool V} {link : Link} {Q : Leaf V × Pool V → Prop}
    (h : ∀ id leaf, p.leaf? id = some leaf → (p.vacate (some id)).Ensures Q) : (p.vacate link).Ensures Q := by
  cases link with
  | none => exact Ensures.throw
  | some id =>
      cases hl : p.leaf? id with
      | some leaf => exact h id leaf hl
      | none =>
          unfold vacate
          dsimp only
          cases hs : p.slot? id with
          | none => exact Ensures.throw
          | some slot =>
              cases slot with
              | vacant next => exact Ensures.throw
              | live leaf => simp [leaf?_eq_some_iff.2 hs] at hl

theorem LaidOut.modify_ensures {p : Pool V} {id : LeafId} {f : Leaf V → Leaf V} (hp : p.LaidOut)
    (hid : id.index < p.opened) : (p.modify (some id) f).Ensures LaidOut := by
  unfold modify
  exact Ensures.after fun leaf => hp.write_ensures hid

/-- A change of a leaf keeps the pool sound. -/
theorem modify_yields {p : Pool V} {id : LeafId} {leaf : Leaf V} {f : Leaf V → Leaf V} (hp : p.Sound)
    (hl : p.leaf? id = some leaf) :
    (p.modify (some id) f).Yields fun p' =>
      p'.Sound ∧ p'.leaf? = Function.update p.leaf? id (some (f leaf)) ∧ p'.live = p.live := by
  refine ((modify_sets hl).with (hp.modify_ensures (hp.index_lt hl))).mono ?_
  rintro p' ⟨⟨hslot, hopened, hfree, hlive⟩, hlaid⟩
  have hleaf := leaf?_update hslot
  obtain ⟨ids, hrun, hnd, hmem, hcount⟩ := hp.free
  -- a live slot is not on the free list, so writing it leaves the list as it was
  have hid : id ∉ ids := fun h => by simp [((hmem id).1 h).2] at hl
  refine ⟨⟨hlaid, by rw [hopened]; exact hp.opened_le, ids, ?_, hnd, ?_, by rw [hlive, hopened, hcount]⟩,
    hleaf, hlive⟩
  · rw [hfree]
    exact hrun.update hslot hid
  · intro id'
    rw [hmem, hopened, hleaf]
    by_cases heq : id' = id
    · subst heq
      simp [hl, Slot.leaf?]
    · rw [Function.update_of_ne heq]

/-- A pool about to fill the vacant slot `id`, which still has the slots `rest` free after it. -/
structure Ready (p : Pool V) (id : LeafId) (next : Link) (rest : List LeafId) : Prop extends p.LaidOut where
  opened_le : p.opened ≤ slotLimit
  lt : id.index < p.opened
  vacant : p.slot? id = some (.vacant next)
  run : FreeRun p.slot? next rest
  nodup : rest.Nodup
  mem : ∀ id', id' ∈ rest ↔ id' ≠ id ∧ id'.index < p.opened ∧ p.leaf? id' = none
  count : p.live + 1 + rest.length = p.opened

/-- Filling the slot makes the pool sound again, once the free list goes on from the next slot. -/
theorem Ready.fill_yields {p : Pool V} {id : LeafId} {leaf : Leaf V} {rest : List LeafId} {next : Link}
    (h : p.Ready id next rest) :
    (p.write id (.live leaf)).Yields fun p' =>
      ({ p' with free := next, live := p'.live + 1 } : Pool V).Sound ∧
        p'.leaf? = Function.update p.leaf? id (some leaf) ∧ p'.live = p.live ∧ p'.free = p.free := by
  refine (write_yields h.toLaidOut h.lt).mono ?_
  rintro p' ⟨hlaid', hslot, hopened, hfree, hlive⟩
  have hleaf := leaf?_update hslot
  refine ⟨⟨⟨hlaid'.untouched, hlaid'.tower⟩, hopened ▸ h.opened_le, rest, ?_, h.nodup, ?_, ?_⟩, hleaf, hlive, hfree⟩
  · exact h.run.update hslot fun hid => ((h.mem id).1 hid).1 rfl
  · intro id'
    change id' ∈ rest ↔ id'.index < p'.opened ∧ p'.leaf? id' = none
    rw [h.mem, hopened, hleaf]
    by_cases heq : id' = id
    · subst heq
      simp [Slot.leaf?]
    · rw [Function.update_of_ne heq]
      simp [heq]
  · change p'.live + 1 + rest.length = p'.opened
    rw [hlive, hopened, h.count]

/-- The slot freed last is ready to be filled. -/
theorem Sound.ready_freed {p : Pool V} {id : LeafId} (hp : p.Sound) (hfree : p.free = some id) :
    ∃ next rest, p.Ready id next rest := by
  obtain ⟨ids, hrun, hnd, hmem, hcount⟩ := hp.free
  rw [hfree] at hrun
  cases ids with
  | nil => exact absurd hrun (by simp [FreeRun])
  | cons id' rest =>
      obtain ⟨hid, next, hs, hrest⟩ := hrun
      obtain rfl := Option.some.inj hid
      rw [List.nodup_cons] at hnd
      refine ⟨next, rest, hp.toLaidOut, hp.opened_le, ((hmem id).1 List.mem_cons_self).1, hs, hrest, hnd.2, ?_, ?_⟩
      · intro id'
        rw [← hmem id', List.mem_cons]
        constructor
        · intro h
          exact ⟨by rintro rfl; exact hnd.1 h, Or.inr h⟩
        · rintro ⟨hne, h | h⟩
          · exact absurd h hne
          · exact h
      · rw [List.length_cons] at hcount
        omega

/-- Opening a slot adds no leaf. -/
theorem leaf?_openSlot {p p' : Pool V} (hp : p.LaidOut) (hp' : p'.LaidOut)
    (hsame : ∀ id, id.index < p.opened → p'.slot? id = p.slot? id)
    (hnew : p'.slot? ⟨p.opened⟩ = some (.vacant none)) (hopened : p'.opened = p.opened + 1) :
    p'.leaf? = p.leaf? := by
  funext id
  -- below the new slot nothing moved, it is vacant itself, and past it there is no leaf in either pool
  rcases Nat.lt_trichotomy id.index p.opened with hlt | heq | hgt
  · unfold leaf?
    rw [hsame id hlt]
  · obtain rfl : id = ⟨p.opened⟩ := by cases id; simp_all
    rw [leaf?_eq_none_of_vacant hnew]
    cases hl : p.leaf? ⟨p.opened⟩ with
    | none => rfl
    | some leaf => exact absurd (hp.index_lt hl) (Nat.lt_irrefl _)
  · cases hl' : p'.leaf? id with
    | some leaf => exact absurd (hp'.index_lt hl') (by omega)
    | none =>
        cases hl : p.leaf? id with
        | none => rfl
        | some leaf => exact absurd (hp.index_lt hl) (by omega)

/-- With nothing on the free list every open slot is live, so their number is the next to open. -/
theorem Sound.opened_of_free_none {p : Pool V} (hp : p.Sound) (hfree : p.free = none) :
    p.live = p.opened ∧ ∀ id, id.index < p.opened → p.leaf? id ≠ none := by
  obtain ⟨ids, hrun, -, hmem, hcount⟩ := hp.free
  rw [hfree] at hrun
  cases ids with
  | cons id rest => exact absurd hrun.1 (by simp)
  | nil =>
      refine ⟨hcount, fun id hlt hnone => ?_⟩
      have := (hmem id).2 ⟨hlt, hnone⟩
      simp at this

/-- A slot opened because none is free is ready to be filled. -/
theorem Sound.ready_opened {p p' : Pool V} (hp : p.Sound) (hfree : p.free = none) (hroom : p.live < slotLimit)
    (hlaid : p'.LaidOut) (hleaf : p'.leaf? = p.leaf?) (hnew : p'.slot? ⟨p.opened⟩ = some (.vacant none))
    (hopened : p'.opened = p.opened + 1) (hlive : p'.live = p.live) : p'.Ready ⟨p.opened⟩ none [] := by
  obtain ⟨hall, hfull⟩ := hp.opened_of_free_none hfree
  refine ⟨hlaid, by omega, by simp [hopened], hnew, rfl, List.nodup_nil, ?_, by simp [hlive, hopened, hall]⟩
  intro id
  rw [hleaf, hopened]
  constructor
  · intro h
    exact absurd h (by simp)
  · rintro ⟨hne, hlt, hnone⟩
    rcases Nat.lt_or_ge id.index p.opened with h | h
    · exact absurd hnone (hfull id h)
    · exact absurd (show id = ⟨p.opened⟩ by cases id; simp at *; omega) hne

/-- **`put` adds one leaf under a number that led nowhere.** -/
theorem put_yields {p : Pool V} {key : Bytes} {value : V} (hp : p.Sound) (hroom : p.live < slotLimit) :
    (p.put key value).Yields fun (id, p') =>
      p.leaf? id = none ∧ p'.Sound ∧
        p'.leaf? = Function.update p.leaf? id (some ⟨key, value, none, none⟩) ∧ p'.live = p.live + 1 := by
  unfold put
  cases hfree : p.free with
  | some id =>
      obtain ⟨next, rest, hready⟩ := hp.ready_freed hfree
      refine Yields.bind_pure ?_
      dsimp only
      rw [hready.vacant]
      refine Yields.bind hready.fill_yields ?_
      rintro p' ⟨hsound, hleaf, hlive, hfree'⟩
      rw [hfree', hfree, if_pos rfl]
      exact Yields.pure ⟨leaf?_eq_none_of_vacant hready.vacant, hsound, hleaf, congrArg (· + 1) hlive⟩
  | none =>
      have hopen : p.opened < slotLimit := (hp.opened_of_free_none hfree).1 ▸ hroom
      refine Yields.bind (openSlot_yields hp.toLaidOut hopen) ?_
      rintro ⟨id, p₁⟩ ⟨rfl, hlaid, hsame, hnew, hopened, hfree₁, hlive₁⟩
      have hleaf₁ := leaf?_openSlot hp.toLaidOut hlaid hsame hnew hopened
      have hready := hp.ready_opened hfree hroom hlaid hleaf₁ hnew hopened hlive₁
      dsimp only
      rw [hnew]
      refine Yields.bind hready.fill_yields ?_
      rintro p' ⟨hsound, hleaf, hlive, hfree'⟩
      -- the free list is empty here, so it does not start at the new slot
      rw [hfree', hfree₁, hfree, if_neg (by simp)]
      refine Yields.pure ⟨?_, hsound, ?_, congrArg (· + 1) (hlive.trans hlive₁)⟩
      · rw [← hleaf₁]
        exact leaf?_eq_none_of_vacant hnew
      · rw [← hleaf₁]
        exact hleaf

/-- With as many live leaves as there are slot numbers, `put` has none to give. -/
theorem put_faults {p : Pool V} {key : Bytes} {value : V} (hp : p.Sound) (hfull : slotLimit ≤ p.live) :
    (p.put key value).Faults .poolExhausted := by
  obtain ⟨ids, hrun, -, -, hcount⟩ := hp.free
  have hle := hp.opened_le
  -- every slot number is live, so the free list has none to hold
  obtain rfl : ids = [] := List.eq_nil_of_length_eq_zero (by omega)
  have hfree : p.free = none := hrun
  unfold put
  rw [hfree]
  exact Faults.bind (openSlot_faults (by simpa using hcount ▸ hfull))

theorem LaidOut.vacate_ensures {p : Pool V} {id : LeafId} (hp : p.LaidOut) (hid : id.index < p.opened) :
    (p.vacate (some id)).Ensures fun a => a.2.LaidOut := by
  unfold vacate
  dsimp only
  split
  · exact Ensures.throw
  · exact Ensures.throw
  · exact Ensures.bind (hp.write_ensures hid) fun p' hlaid => Ensures.pure ⟨hlaid.untouched, hlaid.tower⟩

/-- **`vacate` takes one leaf away.** -/
theorem vacate_yields {p : Pool V} {id : LeafId} {leaf : Leaf V} (hp : p.Sound)
    (hl : p.leaf? id = some leaf) :
    (p.vacate (some id)).Yields fun (old, p') =>
      old = leaf ∧ p'.Sound ∧ p'.leaf? = Function.update p.leaf? id none ∧ p'.live + 1 = p.live := by
  obtain ⟨ids, hrun, hnd, hmem, hcount⟩ := hp.free
  have hlt := hp.index_lt hl
  have hid : id ∉ ids := fun h => by simp [((hmem id).1 h).2] at hl
  -- the leaf that goes is counted
  have hpos : [id].length ≤ p.live := hp.length_le_live (by simp) (by simp [hl])
  rw [List.length_singleton] at hpos
  refine ((vacate_sets hl).with (hp.vacate_ensures hlt)).mono ?_
  rintro ⟨old, p'⟩ ⟨⟨hold, hslot, hopened, hfree, hlive⟩, hlaid⟩
  have hleaf := leaf?_update hslot
  refine ⟨hold, ⟨hlaid, hopened ▸ hp.opened_le, id :: ids, ?_, ?_, ?_, ?_⟩, hleaf, by omega⟩
  · rw [hfree]
    refine ⟨rfl, p.free, ?_, hrun.update hslot hid⟩
    rw [hslot, Function.update_self]
  · exact List.nodup_cons.2 ⟨hid, hnd⟩
  · intro id'
    rw [List.mem_cons, hmem, hopened, hleaf]
    by_cases heq : id' = id
    · subst heq
      simp [Slot.leaf?, hlt]
    · rw [Function.update_of_ne heq]
      simp [heq]
  · rw [hlive, hopened, List.length_cons]
    omega

/-- Whatever leaf is changed, a sound pool stays sound. -/
theorem Sound.modify_keeps {p : Pool V} (hp : p.Sound) (link : Link) (f : Leaf V → Leaf V) :
    (p.modify link f).Ensures Sound :=
  modify_ensures fun _ _ hl => (modify_yields hp hl).ensures.mono fun _ h => h.1

/-- Whatever leaf is freed, a sound pool stays sound. -/
theorem Sound.vacate_keeps {p : Pool V} (hp : p.Sound) (link : Link) :
    (p.vacate link).Ensures fun a => a.2.Sound :=
  vacate_ensures fun _ _ hl => (vacate_yields hp hl).ensures.mono fun _ h => h.2.1

end OrderedStore.Pool
