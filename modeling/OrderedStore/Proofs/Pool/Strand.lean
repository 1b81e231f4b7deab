import Mathlib.Tactic
import OrderedStore.Pool.Chain
import OrderedStore.Proofs.Pool.Sound

/-!
# Strands: a stretch of a chain as a list

A strand is a list of entries whose leaves follow one another in the pool: each names its neighbours in
the list, the first names what comes before the strand and the last what comes after it. A strand pins its
leaves down completely, so every chain operation is a statement about lists: `connect` ties two strands
into one, and everything that links, unlinks or frees leaves is made of that.
-/

namespace OrderedStore

/-- A leaf by its number and what it stores, without its links. -/
structure Entry (V : Type) where
  id : LeafId
  key : Bytes
  value : V

namespace Entry

variable {V : Type}

/-- The link to the first entry of a list. -/
def first (es : List (Entry V)) : Link := es.head?.map Entry.id

/-- The link to the last entry of a list. -/
def last (es : List (Entry V)) : Link := es.getLast?.map Entry.id

@[simp] theorem first_nil : first ([] : List (Entry V)) = none := rfl

@[simp] theorem last_nil : last ([] : List (Entry V)) = none := rfl

@[simp] theorem first_cons (e : Entry V) (es : List (Entry V)) : first (e :: es) = some e.id := rfl

@[simp] theorem last_singleton (e : Entry V) : last [e] = some e.id := rfl

theorem first_append (xs ys : List (Entry V)) : first (xs ++ ys) = (first xs).or (first ys) := by
  unfold first
  rw [List.head?_append, Option.map_or]

theorem last_append (xs ys : List (Entry V)) : last (xs ++ ys) = (last ys).or (last xs) := by
  unfold last
  rw [List.getLast?_append, Option.map_or]

@[simp] theorem last_concat (es : List (Entry V)) (e : Entry V) : last (es ++ [e]) = some e.id := by
  rw [last_append, last_singleton, Option.some_or]

theorem first_append_left {xs ys : List (Entry V)} (h : xs ≠ []) : first (xs ++ ys) = first xs := by
  unfold first
  rw [List.head?_append_of_ne_nil _ h]

theorem last_append_right {xs ys : List (Entry V)} (h : ys ≠ []) : last (xs ++ ys) = last ys := by
  unfold last
  rw [List.getLast?_append_of_ne_nil _ h]

theorem last_cons (e : Entry V) (es : List (Entry V)) : last (e :: es) = (last es).or (some e.id) :=
  last_append [e] es

theorem mem_of_first {es : List (Entry V)} {id : LeafId} (h : first es = some id) : id ∈ es.map Entry.id := by
  obtain ⟨e, he, rfl⟩ := Option.map_eq_some_iff.1 h
  exact List.mem_map_of_mem (List.mem_of_head? he)

theorem mem_of_last {es : List (Entry V)} {id : LeafId} (h : last es = some id) : id ∈ es.map Entry.id := by
  obtain ⟨e, he, rfl⟩ := Option.map_eq_some_iff.1 h
  exact List.mem_map_of_mem (List.mem_of_getLast? he)

theorem first_eq_none_iff {es : List (Entry V)} : first es = none ↔ es = [] := by
  unfold first
  simp

theorem last_eq_none_iff {es : List (Entry V)} : last es = none ↔ es = [] := by
  unfold last
  simp

end Entry

namespace Pool

open Edit Entry

variable {V : Type}

/-- The entries' leaves follow one another from what comes `before` to what comes `after`. -/
def Strand (p : Pool V) : Link → List (Entry V) → Link → Prop
  | _, [], _ => True
  | before, e :: es, after =>
    p.leaf? e.id = some ⟨e.key, e.value, before, (first es).or after⟩ ∧ p.Strand (some e.id) es after

/-- The leaf of an entry that no other leaf is linked with. -/
def Alone (p : Pool V) (e : Entry V) : Prop := p.Strand none [e] none

theorem strand_cons {p : Pool V} {before after : Link} {e : Entry V} {es : List (Entry V)} :
    p.Strand before (e :: es) after ↔
      p.leaf? e.id = some ⟨e.key, e.value, before, (first es).or after⟩ ∧ p.Strand (some e.id) es after :=
  Iff.rfl

theorem alone_iff {p : Pool V} {e : Entry V} :
    p.Alone e ↔ p.leaf? e.id = some ⟨e.key, e.value, none, none⟩ := by
  unfold Alone
  simp [Strand]

/-- A strand of two parts: each part is a strand, and each is what the other borders on. -/
theorem strand_append {p : Pool V} {xs ys : List (Entry V)} {before after : Link} :
    p.Strand before (xs ++ ys) after ↔
      p.Strand before xs ((first ys).or after) ∧ p.Strand ((last xs).or before) ys after := by
  induction xs generalizing before with
  | nil => simp [Strand]
  | cons x xs ih =>
      rw [List.cons_append, strand_cons, strand_cons, ih, first_append, Option.or_assoc, last_cons,
        Option.or_assoc, Option.some_or, and_assoc]

/-- A strand depends on the leaves of its own entries only. -/
theorem Strand.congr {p p' : Pool V} {es : List (Entry V)} {before after : Link}
    (h : p.Strand before es after) (hp : ∀ id ∈ es.map Entry.id, p'.leaf? id = p.leaf? id) :
    p'.Strand before es after := by
  induction es generalizing before with
  | nil => trivial
  | cons e es ih =>
      rw [List.map_cons] at hp
      refine ⟨(hp _ List.mem_cons_self).trans h.1, ih h.2 fun id hid => hp id (List.mem_cons_of_mem _ hid)⟩

theorem Strand.isSome {p : Pool V} {es : List (Entry V)} {before after : Link}
    (h : p.Strand before es after) : ∀ id ∈ es.map Entry.id, (p.leaf? id).isSome := by
  induction es generalizing before with
  | nil => simp
  | cons e es ih =>
      intro id hid
      rcases List.mem_cons.1 hid with rfl | hid
      · rw [h.1]
        rfl
      · exact ih h.2 id hid

/-- The leaf of an entry in the middle of a strand. -/
theorem Strand.leaf?_mid {p : Pool V} {xs ys : List (Entry V)} {e : Entry V} {before after : Link}
    (h : p.Strand before (xs ++ e :: ys) after) :
    p.leaf? e.id = some ⟨e.key, e.value, (last xs).or before, (first ys).or after⟩ :=
  (strand_append.1 h).2.1

/-! ## Changing links -/

/-- What linking `b` behind `a` makes of the leaf numbered `id`. -/
def relink (a b : Link) (id : LeafId) (leaf : Leaf V) : Leaf V :=
  { leaf with next := if a = some id then b else leaf.next, prev := if b = some id then a else leaf.prev }

theorem relink_of_ne {a b : Link} {id : LeafId} (leaf : Leaf V) (ha : a ≠ some id) (hb : b ≠ some id) :
    relink a b id leaf = leaf := by
  unfold relink
  rw [if_neg ha, if_neg hb]

/-- Changing the leaf a link leads to, if it leads to one. -/
theorem modify_if_yields {p : Pool V} {a : Link} {f : Leaf V → Leaf V}
    (ha : ∀ id, a = some id → (p.leaf? id).isSome) :
    (if a.isSome then p.modify a f else pure p : Edit (Pool V)).Yields fun p' =>
      (∀ id, p'.leaf? id = (p.leaf? id).map fun leaf => if a = some id then f leaf else leaf) ∧
        p'.live = p.live := by
  cases a with
  | none =>
      refine Yields.pure ⟨fun id => ?_, rfl⟩
      simp
  | some x =>
      obtain ⟨leaf, hl⟩ := Option.isSome_iff_exists.1 (ha x rfl)
      refine (modify_sets hl).mono ?_
      intro p' h
      obtain ⟨hslot, -, -, hlive⟩ := h
      refine ⟨fun id => ?_, hlive⟩
      rw [leaf?_update hslot]
      by_cases heq : id = x
      · subst heq
        rw [Function.update_self, hl, Option.map_some, if_pos rfl]
        rfl
      · rw [Function.update_of_ne heq]
        have hne : (some x : Link) ≠ some id := fun h => heq (Option.some.inj h).symm
        simp [hne]

theorem connect_eq (p : Pool V) (a b : Link) :
    p.connect a b =
      (if a.isSome then p.modify a ({ · with next := b }) else pure p : Edit (Pool V)) >>= fun p =>
        if b.isSome then p.modify b ({ · with prev := a }) else pure p := by
  unfold connect
  cases a with
  | none => rfl
  | some x => rfl

/-- **`connect` changes the next link of one leaf and the previous link of another.** -/
theorem connect_relinks {p : Pool V} {a b : Link} (ha : ∀ id, a = some id → (p.leaf? id).isSome)
    (hb : ∀ id, b = some id → (p.leaf? id).isSome) :
    (p.connect a b).Yields fun p' => (∀ id, p'.leaf? id = (p.leaf? id).map (relink a b id)) ∧ p'.live = p.live := by
  rw [connect_eq]
  refine Yields.bind (modify_if_yields ha) ?_
  intro p₁ h₁
  obtain ⟨hleaf₁, hlive₁⟩ := h₁
  have hb₁ : ∀ id, b = some id → (p₁.leaf? id).isSome := by
    intro id hid
    rw [hleaf₁, Option.isSome_map]
    exact hb id hid
  refine (modify_if_yields hb₁).mono ?_
  intro p' h'
  obtain ⟨hleaf, hlive⟩ := h'
  refine ⟨fun id => ?_, hlive.trans hlive₁⟩
  -- the two changes are to different fields, so it does not matter if they meet in one leaf
  rw [hleaf, hleaf₁, Option.map_map]
  refine Option.map_congr fun leaf _ => ?_
  unfold relink
  by_cases hnext : a = some id <;> by_cases hprev : b = some id <;> simp [hnext, hprev]

/-! ## What writes keep -/

/-- Whichever leaf of a pool is changed, and in whatever way, this stays true of the pool. -/
def KeptByModify (I : Pool V → Prop) : Prop := ∀ p link f, I p → (p.modify link f).Ensures I

/-- Whichever leaf of a pool is freed, this stays true of the pool. -/
def KeptByVacate (I : Pool V → Prop) : Prop := ∀ p link, I p → (p.vacate link).Ensures fun a => I a.2

section Keeps

variable {I : Pool V → Prop} {p : Pool V}

theorem KeptByModify.connect (hI : KeptByModify I) (hp : I p) (a b : Link) : (p.connect a b).Ensures I := by
  have hside : ∀ (q : Pool V) (link : Link) (f : Leaf V → Leaf V), I q →
      (if link.isSome then q.modify link f else pure q : Edit (Pool V)).Ensures I := by
    intro q link f hq
    split
    · exact hI q link f hq
    · exact Ensures.pure hq
  rw [connect_eq]
  exact Ensures.bind (hside p a _ hp) fun q hq => hside q b _ hq

theorem KeptByModify.between (hI : KeptByModify I) (hp : I p) (pred id succ : Link) :
    (do
      let p ← p.connect pred id
      p.connect id succ : Edit (Pool V)).Ensures I :=
  Ensures.bind (hI.connect hp pred id) fun _ hq => hI.connect hq id succ

theorem KeptByModify.spliceAfter (hI : KeptByModify I) (hp : I p) (pred id : Link) : (p.spliceAfter pred id).Ensures I :=
  Ensures.after fun succ => hI.between hp pred id succ

theorem KeptByModify.spliceBefore (hI : KeptByModify I) (hp : I p) (succ id : Link) :
    (p.spliceBefore succ id).Ensures I :=
  Ensures.after fun pred => hI.between hp pred id succ

theorem KeptByModify.unlink (hI : KeptByModify I) (hp : I p) (id : Link) : (p.unlink id).Ensures I := by
  unfold Pool.unlink
  refine Ensures.after fun leaf => ?_
  exact Ensures.bind (hI.connect hp leaf.prev leaf.next) fun q hq => hI q id _ hq

theorem KeptByVacate.vacateThrough (hI : KeptByVacate I) (hp : I p) (last : Link) (steps : Nat) (current : Link) :
    (vacateThrough last steps p current).Ensures fun a => I a.2 := by
  induction steps generalizing p current with
  | zero => exact Ensures.throw
  | succ steps ih =>
      refine Ensures.after fun next => Ensures.bind (hI p current hp) fun freed hfreed => ?_
      dsimp only
      split
      · exact Ensures.pure hfreed
      · split
        · exact Ensures.bind (P := fun _ => False) Ensures.throw fun _ hnever => hnever.elim
        · exact Ensures.bind (ih hfreed next) fun a ha => Ensures.pure ha

theorem KeptByVacate.vacateRun (hV : KeptByVacate I) (hM : KeptByModify I) (hp : I p) (first last : Link) :
    (p.vacateRun first last).Ensures fun a => I a.2 := by
  refine Ensures.after fun before => Ensures.after fun after => ?_
  refine Ensures.bind (hV.vacateThrough hp last _ first) fun freed hfreed => ?_
  exact Ensures.bind (hM.connect hfreed before after) fun q hq => Ensures.pure hq

end Keeps

/-- A slot that holds no leaf. -/
def IsVacant (p : Pool V) (id : LeafId) : Prop := ∃ next, p.slot? id = some (.vacant next)

theorem IsVacant.leaf?_eq_none {p : Pool V} {id : LeafId} (h : p.IsVacant id) : p.leaf? id = none := by
  obtain ⟨next, hs⟩ := h
  exact leaf?_eq_none_of_vacant hs

/-- Writing a live slot leaves a vacant one as it was. -/
theorem IsVacant.of_update {p p' : Pool V} {id id' : LeafId} {leaf : Leaf V} {slot : Option (Slot V)}
    (h : p.IsVacant id) (hl : p.leaf? id' = some leaf) (hslot : p'.slot? = Function.update p.slot? id' slot) :
    p'.IsVacant id := by
  have hne : id ≠ id' := by
    intro heq
    rw [← heq, h.leaf?_eq_none] at hl
    cases hl
  unfold IsVacant
  rw [hslot, Function.update_of_ne hne]
  exact h

theorem isVacant_kept_by_modify (id : LeafId) : KeptByModify fun p : Pool V => p.IsVacant id := fun _ _ _ h =>
  modify_ensures fun _ _ hl => (modify_sets hl).ensures.mono fun _ hsets => h.of_update hl hsets.1

theorem isVacant_kept_by_vacate (id : LeafId) : KeptByVacate fun p : Pool V => p.IsVacant id := fun _ _ h =>
  vacate_ensures fun _ _ hl => (vacate_sets hl).ensures.mono fun _ hsets => h.of_update hl hsets.2.1

/-! ## Tying strands together -/

/-- Two pools that hold the same leaves apart from those with the given numbers. -/
def SameOff (p p' : Pool V) (ids : List LeafId) : Prop := ∀ id, id ∉ ids → p'.leaf? id = p.leaf? id

/-- The leaves on either side of a cut. -/
def sides (xs ys : List (Entry V)) : List LeafId := (last xs).toList ++ (first ys).toList

theorem mem_sides {xs ys : List (Entry V)} {id : LeafId} :
    id ∈ sides xs ys ↔ last xs = some id ∨ first ys = some id := by
  unfold sides
  rw [List.mem_append, Option.mem_toList, Option.mem_toList]

theorem sides_subset (xs ys : List (Entry V)) : sides xs ys ⊆ (xs ++ ys).map Entry.id := by
  intro id hid
  rw [List.map_append, List.mem_append]
  exact (mem_sides.1 hid).imp mem_of_last mem_of_first

theorem Strand.relink_left {p p' : Pool V} {es : List (Entry V)} {before after b : Link}
    (h : p.Strand before es after) (hnd : (es.map Entry.id).Nodup) (hb : ∀ id ∈ es.map Entry.id, b ≠ some id)
    (hp : ∀ id, p'.leaf? id = (p.leaf? id).map (relink (last es) b id)) : p'.Strand before es b := by
  induction es generalizing before with
  | nil => trivial
  | cons e es ih =>
      rw [List.map_cons, List.nodup_cons] at hnd
      rw [List.map_cons] at hb
      have hbe := hb _ List.mem_cons_self
      cases es with
      | nil =>
          refine ⟨?_, trivial⟩
          rw [hp, h.1]
          simp [relink, hbe]
      | cons e' es =>
          -- the link that changes is that of the last leaf, further on
          have hlast : last (e :: e' :: es) = last (e' :: es) := by simp [last]
          rw [hlast] at hp
          have hne : last (e' :: es) ≠ some e.id := fun he => hnd.1 (mem_of_last he)
          refine ⟨?_, ih h.2 hnd.2 (fun id hid => hb id (List.mem_cons_of_mem _ hid)) hp⟩
          rw [hp, h.1, Option.map_some, relink_of_ne _ hne hbe]
          rfl

theorem Strand.relink_right {p p' : Pool V} {es : List (Entry V)} {before after a : Link}
    (h : p.Strand before es after) (hnd : (es.map Entry.id).Nodup) (ha : ∀ id ∈ es.map Entry.id, a ≠ some id)
    (hp : ∀ id, p'.leaf? id = (p.leaf? id).map (relink a (first es) id)) : p'.Strand a es after := by
  cases es with
  | nil => trivial
  | cons e es =>
      rw [List.map_cons, List.nodup_cons] at hnd
      rw [List.map_cons] at ha
      refine ⟨?_, Strand.congr h.2 fun id hid => ?_⟩
      · rw [hp, h.1]
        simp [relink, ha _ List.mem_cons_self]
      · have hne : first (e :: es) ≠ some id := by
          rintro he
          rw [first_cons, Option.some.injEq] at he
          exact hnd.1 (he ▸ hid)
        obtain ⟨leaf, hl⟩ := Option.isSome_iff_exists.1 (h.2.isSome id hid)
        rw [hp, hl, Option.map_some, relink_of_ne _ (ha id (List.mem_cons_of_mem _ hid)) hne]

/-- **`connect` ties two strands into one** and leaves every leaf as it was but the two that meet. -/
theorem connect_yields {p : Pool V} {xs ys : List (Entry V)} {after before : Link}
    (hxs : p.Strand none xs after) (hys : p.Strand before ys none) (hnd : ((xs ++ ys).map Entry.id).Nodup) :
    (p.connect (last xs) (first ys)).Yields fun p' =>
      p'.Strand none (xs ++ ys) none ∧ p'.live = p.live ∧ p.SameOff p' (sides xs ys) := by
  rw [List.map_append, List.nodup_append'] at hnd
  obtain ⟨hndx, hndy, hdisj⟩ := hnd
  have hlast : ∀ id ∈ ys.map Entry.id, last xs ≠ some id := fun id hid he => hdisj (mem_of_last he) hid
  have hfirst : ∀ id ∈ xs.map Entry.id, first ys ≠ some id := fun id hid he => hdisj hid (mem_of_first he)
  refine (connect_relinks (fun id he => hxs.isSome id (mem_of_last he))
    (fun id he => hys.isSome id (mem_of_first he))).mono ?_
  intro p' h
  obtain ⟨hleaf, hlive⟩ := h
  refine ⟨strand_append.2 ⟨?_, ?_⟩, hlive, ?_⟩
  · rw [Option.or_none]
    exact hxs.relink_left hndx hfirst hleaf
  · rw [Option.or_none]
    exact hys.relink_right hndy hlast hleaf
  · intro id hid
    rw [mem_sides, not_or] at hid
    rw [hleaf]
    cases p.leaf? id with
    | none => rfl
    | some leaf => exact congrArg some (relink_of_ne leaf hid.1 hid.2)

end Pool

end OrderedStore
