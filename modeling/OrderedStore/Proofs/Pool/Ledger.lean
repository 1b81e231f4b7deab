import Mathlib.Data.Finset.Card
import Mathlib.Tactic
import OrderedStore.Pool.Chain
import OrderedStore.Proofs.Pool.Extent
import OrderedStore.Proofs.Runs

/-!
# A pool keeps a ledger

A ledger says what a pool is for, without slots and tables: which leaf each number leads to, in which order
numbers were given back, and how many leaves were ever live at once. It answers every call a pool does. The
number it gives out is the one given back last among those that lead nowhere now, or else the first that was
never given out. Each call on a pool comes to what the ledger says, its faults included, because a pool that
stands for a ledger has its free list threaded through just the numbers that the ledger has vacant, in that
order.
-/

namespace OrderedStore

variable {V : Type}

/-- What becomes of the leaves of a pool. -/
structure Ledger (V : Type) where
  /-- The leaf that a number leads to. -/
  leaf? : LeafId → Option (Leaf V) := fun _ => none
  /-- The numbers that lead to a leaf. -/
  live : Finset LeafId := ∅
  /-- The numbers that were ever given back, each as of the last time, the latest first. -/
  released : List LeafId := []
  /-- How many leaves were ever live at once. -/
  peak : Nat := 0

namespace Ledger

/-- The numbers given back that lead nowhere now, the latest first. -/
def vacated (s : Ledger V) : List LeafId := s.released.filter fun id => (s.leaf? id).isNone

/-- The leaf a link leads to. -/
def get (s : Ledger V) (link : Link) : Except Fault (Leaf V) :=
  match link.bind s.leaf? with
  | some leaf => .ok leaf
  | none => .error (.dangling link)

def nextOf (s : Ledger V) (link : Link) : Except Fault Link := return (← s.get link).next

def prevOf (s : Ledger V) (link : Link) : Except Fault Link := return (← s.get link).prev

/-- Change the leaf a link leads to. -/
def modify (s : Ledger V) (link : Link) (f : Leaf V → Leaf V) : Except Fault (Ledger V) := do
  let leaf ← s.get link
  match link with
  | none => .ok s
  | some id => .ok { s with leaf? := Function.update s.leaf? id (some (f leaf)) }

/-- The number to be given out next. -/
def next (s : Ledger V) : LeafId := s.vacated.head?.getD ⟨s.peak⟩

/-- Give out a number for an unlinked leaf. -/
def put (s : Ledger V) (key : Bytes) (value : V) : Except Fault (LeafId × Ledger V) :=
  if s.vacated = [] ∧ Pool.slotLimit ≤ s.peak then .error .poolExhausted
  else .ok (s.next, { s with
    leaf? := Function.update s.leaf? s.next (some ⟨key, value, none, none⟩)
    live := insert s.next s.live
    peak := max s.peak (insert s.next s.live).card })

/-- Take a number back and answer its leaf. Slots come in blocks, so a number may have a slot before it is
ever given out; that one is vacant, and a number past the blocks has none. -/
def vacate (s : Ledger V) : Link → Except Fault (Leaf V × Ledger V)
  | none => .error (.dangling none)
  | some id =>
    match s.leaf? id with
    | none => .error (if id.index < Table.reach s.peak then .alreadyVacant id else .dangling id)
    | some leaf => .ok (leaf, { s with
        leaf? := Function.update s.leaf? id none
        live := s.live.erase id
        released := id :: s.released.filter (· ≠ id) })

/-- Change the leaf a link leads to, unless the link is the end of a chain. -/
def modifyIf (s : Ledger V) (link : Link) (f : Leaf V → Leaf V) : Except Fault (Ledger V) :=
  if link.isSome then s.modify link f else .ok s

/-- Make `b` follow `a`. Either may be the end of a chain. -/
def connect (s : Ledger V) (a b : Link) : Except Fault (Ledger V) := do
  let s ← s.modifyIf a ({ · with next := b })
  s.modifyIf b ({ · with prev := a })

/-- Put the leaf `id` between `pred` and what follows it. -/
def spliceAfter (s : Ledger V) (pred id : Link) : Except Fault (Ledger V) := do
  let succ ← s.nextOf pred
  let s ← s.connect pred id
  s.connect id succ

/-- Put the leaf `id` between `succ` and what comes before it. -/
def spliceBefore (s : Ledger V) (succ id : Link) : Except Fault (Ledger V) := do
  let pred ← s.prevOf succ
  let s ← s.connect pred id
  s.connect id succ

/-- Take a leaf out of its chain. -/
def unlink (s : Ledger V) (id : Link) : Except Fault (Ledger V) := do
  let leaf ← s.get id
  let s ← s.connect leaf.prev leaf.next
  s.modify id ({ · with prev := none, next := none })

/-- Take back the numbers from `current` along the chain up to `last`. There are `left` numbers that lead
anywhere; with none left every link dangles. -/
def vacateThrough (last : Link) : (left : Nat) → Ledger V → (current : Link) → Except Fault (Nat × Ledger V)
  | 0, _, current => .error (.dangling current)
  | left + 1, s, current => do
    let next ← s.nextOf current
    let (_, s) ← s.vacate current
    if current = last then return (1, s)
    if next = none then throw .runCutShort
    let (count, s) ← vacateThrough last left s next
    return (count + 1, s)

/-- Take back the numbers of a run of leaves and join what was on either side of it. -/
def vacateRun (s : Ledger V) (first last : Link) : Except Fault (Nat × Ledger V) := do
  let before ← s.prevOf first
  let after ← s.nextOf last
  let (count, s) ← vacateThrough last s.live.card s first
  let s ← s.connect before after
  return (count, s)

end Ledger

namespace Pool

/-- A call that may write a pool. -/
inductive Call (V : Type)
  | put (key : Bytes) (value : V)
  | modify (link : Link) (f : Leaf V → Leaf V)
  | vacate (link : Link)
  | connect (a b : Link)
  | spliceAfter (pred id : Link)
  | spliceBefore (succ id : Link)
  | unlink (id : Link)
  | vacateRun (first last : Link)

/-- What a call answers. -/
inductive Reply (V : Type)
  | put (id : LeafId)
  | vacated (leaf : Leaf V)
  | vacatedRun (count : Nat)
  | done

/-- Make one call. -/
def perform (p : Pool V) : Call V → Edit (Reply V × Pool V)
  | .put key value => do
    let (id, p) ← p.put key value
    return (.put id, p)
  | .modify link f => return (.done, ← p.modify link f)
  | .vacate link => do
    let (leaf, p) ← p.vacate link
    return (.vacated leaf, p)
  | .connect a b => return (.done, ← p.connect a b)
  | .spliceAfter pred id => return (.done, ← p.spliceAfter pred id)
  | .spliceBefore succ id => return (.done, ← p.spliceBefore succ id)
  | .unlink id => return (.done, ← p.unlink id)
  | .vacateRun first last => do
    let (count, p) ← p.vacateRun first last
    return (.vacatedRun count, p)

end Pool

namespace Ledger

/-- What a ledger answers to a call, and what becomes of it. -/
def answer (s : Ledger V) : Pool.Call V → Except Fault (Pool.Reply V × Ledger V)
  | .put key value => do
    let (id, s) ← s.put key value
    return (.put id, s)
  | .modify link f => return (.done, ← s.modify link f)
  | .vacate link => do
    let (leaf, s) ← s.vacate link
    return (.vacated leaf, s)
  | .connect a b => return (.done, ← s.connect a b)
  | .spliceAfter pred id => return (.done, ← s.spliceAfter pred id)
  | .spliceBefore succ id => return (.done, ← s.spliceBefore succ id)
  | .unlink id => return (.done, ← s.unlink id)
  | .vacateRun first last => do
    let (count, s) ← s.vacateRun first last
    return (.vacatedRun count, s)

theorem get_some {s : Ledger V} {id : LeafId} {leaf : Leaf V} (h : s.leaf? id = some leaf) :
    s.get (some id) = .ok leaf := by
  unfold get
  rw [Option.bind_some, h]

theorem get_none {s : Ledger V} {link : Link} (h : link.bind s.leaf? = none) :
    s.get link = .error (.dangling link) := by
  unfold get
  rw [h]

theorem get_eq_ok {s : Ledger V} {link : Link} {leaf : Leaf V} (h : s.get link = .ok leaf) :
    ∃ id, link = some id ∧ s.leaf? id = some leaf := by
  unfold get at h
  split at h
  · rename_i leaf' hl
    obtain rfl := Except.ok.inj h
    exact Option.bind_eq_some_iff.1 hl
  · cases h

theorem nextOf_none {s : Ledger V} {link : Link} (h : link.bind s.leaf? = none) :
    s.nextOf link = .error (.dangling link) := by
  unfold nextOf
  rw [get_none h]
  rfl

theorem nextOf_eq_ok {s : Ledger V} {link link' : Link} (h : s.nextOf link = .ok link') :
    ∃ id leaf, link = some id ∧ s.leaf? id = some leaf := by
  unfold nextOf at h
  cases hget : s.get link with
  | error fault =>
      rw [hget] at h
      cases h
  | ok leaf =>
      obtain ⟨id, rfl, hl⟩ := get_eq_ok hget
      exact ⟨id, leaf, rfl, hl⟩

theorem modify_eq_ok {s s' : Ledger V} {id : LeafId} {f : Leaf V → Leaf V} (h : s.modify (some id) f = .ok s') :
    ∃ leaf, s'.leaf? = Function.update s.leaf? id leaf := by
  unfold modify at h
  cases hget : s.get (some id) with
  | error fault =>
      rw [hget] at h
      cases h
  | ok leaf =>
      rw [hget] at h
      obtain rfl := Except.ok.inj h
      exact ⟨some (f leaf), rfl⟩

theorem vacate_eq_ok {s s' : Ledger V} {id : LeafId} {leaf : Leaf V} (h : s.vacate (some id) = .ok (leaf, s')) :
    s'.leaf? = Function.update s.leaf? id none ∧ s'.live = s.live.erase id := by
  unfold vacate at h
  dsimp only at h
  split at h
  · cases h
  · obtain ⟨-, rfl⟩ := Prod.mk.inj (Except.ok.inj h)
    exact ⟨rfl, rfl⟩

theorem put_eq_ok {s s' : Ledger V} {id : LeafId} {key : Bytes} {value : V} (h : s.put key value = .ok (id, s')) :
    id = s.next ∧ s'.leaf? = Function.update s.leaf? id (some ⟨key, value, none, none⟩) ∧
      s'.live = insert id s.live := by
  unfold put at h
  split at h
  · cases h
  · obtain ⟨rfl, rfl⟩ := Prod.mk.inj (Except.ok.inj h)
    exact ⟨rfl, rfl, rfl⟩

/-- What becomes of one number makes no difference to the links that lead elsewhere. -/
theorem get_of_ne {s s' : Ledger V} {id : LeafId} {leaf : Option (Leaf V)}
    (h : s'.leaf? = Function.update s.leaf? id leaf) {link : Link} (hne : link ≠ some id) : s'.get link = s.get link := by
  unfold get
  rw [h]
  cases link with
  | none => rfl
  | some id' => rw [Option.bind_some, Option.bind_some, Function.update_of_ne fun heq => hne (congrArg some heq)]

/-! ## The faults of a ledger -/

/-- A call on a leaf that is not there, on a run that ends too soon, or for more leaves than there are numbers. -/
def Blames : Fault → Prop
  | .dangling _ | .alreadyVacant _ | .poolExhausted | .runCutShort => True
  | _ => False

section Faults

variable (s : Ledger V)

theorem get_faults (link : Link) : FaultsOnly Blames (s.get link) := by
  unfold get
  split
  · exact FaultsOnly.ok
  · exact FaultsOnly.error trivial

theorem nextOf_faults (link : Link) : FaultsOnly Blames (s.nextOf link) :=
  (s.get_faults link).bind fun _ => FaultsOnly.ok

theorem prevOf_faults (link : Link) : FaultsOnly Blames (s.prevOf link) :=
  (s.get_faults link).bind fun _ => FaultsOnly.ok

theorem modify_faults (link : Link) (f : Leaf V → Leaf V) : FaultsOnly Blames (s.modify link f) := by
  refine (s.get_faults link).bind fun leaf => ?_
  cases link with
  | none => exact FaultsOnly.ok
  | some id => exact FaultsOnly.ok

theorem put_faults (key : Bytes) (value : V) : FaultsOnly Blames (s.put key value) := by
  unfold put
  split
  · exact FaultsOnly.error trivial
  · exact FaultsOnly.ok

theorem vacate_faults (link : Link) : FaultsOnly Blames (s.vacate link) := by
  cases link with
  | none => exact FaultsOnly.error trivial
  | some id =>
      unfold vacate
      dsimp only
      split
      · refine FaultsOnly.error ?_
        split <;> trivial
      · exact FaultsOnly.ok

theorem connect_faults (a b : Link) : FaultsOnly Blames (s.connect a b) := by
  have hside : ∀ (s : Ledger V) (link : Link) (f : Leaf V → Leaf V), FaultsOnly Blames (s.modifyIf link f) := by
    intro s link f
    unfold modifyIf
    split
    · exact s.modify_faults link f
    · exact FaultsOnly.ok
  exact (hside s a _).bind fun s => hside s b _

theorem vacateThrough_faults (last : Link) (left : Nat) (current : Link) :
    FaultsOnly Blames (vacateThrough last left s current) := by
  induction left generalizing s current with
  | zero => exact FaultsOnly.error trivial
  | succ left ih =>
      refine (s.nextOf_faults current).bind fun next => ?_
      refine (s.vacate_faults current).bind fun vacated => ?_
      dsimp only
      split
      · exact FaultsOnly.ok
      · split
        · exact FaultsOnly.error trivial
        · exact (ih vacated.2 next).bind fun _ => FaultsOnly.ok

/-- **A ledger blames the caller or the want of numbers**, and nothing else. -/
theorem answer_faults (call : Pool.Call V) : FaultsOnly Blames (s.answer call) := by
  cases call with
  | put key value => exact (s.put_faults key value).bind fun _ => FaultsOnly.ok
  | modify link f => exact (s.modify_faults link f).bind fun _ => FaultsOnly.ok
  | vacate link => exact (s.vacate_faults link).bind fun _ => FaultsOnly.ok
  | connect a b => exact (s.connect_faults a b).bind fun _ => FaultsOnly.ok
  | spliceAfter pred id =>
      refine FaultsOnly.bind ?_ fun _ => FaultsOnly.ok
      exact (s.nextOf_faults pred).bind fun succ => (s.connect_faults pred id).bind fun s => s.connect_faults id succ
  | spliceBefore succ id =>
      refine FaultsOnly.bind ?_ fun _ => FaultsOnly.ok
      exact (s.prevOf_faults succ).bind fun pred => (s.connect_faults pred id).bind fun s => s.connect_faults id succ
  | unlink id =>
      refine FaultsOnly.bind ?_ fun _ => FaultsOnly.ok
      exact (s.get_faults id).bind fun leaf =>
        (s.connect_faults leaf.prev leaf.next).bind fun s => s.modify_faults id _
  | vacateRun first last =>
      refine FaultsOnly.bind ?_ fun _ => FaultsOnly.ok
      refine (s.prevOf_faults first).bind fun before => (s.nextOf_faults last).bind fun after => ?_
      refine (s.vacateThrough_faults last _ first).bind fun result => ?_
      exact (result.2.connect_faults before after).bind fun _ => FaultsOnly.ok

end Faults

/-! ## The numbers that are vacant -/

theorem next_of_nil {s : Ledger V} (h : s.vacated = []) : s.next = ⟨s.peak⟩ := by
  unfold next
  rw [h]
  rfl

theorem next_of_cons {s : Ledger V} {id : LeafId} {rest : List LeafId} (h : s.vacated = id :: rest) : s.next = id := by
  unfold next
  rw [h]
  rfl

theorem mem_vacated {s : Ledger V} {id : LeafId} : id ∈ s.vacated ↔ id ∈ s.released ∧ s.leaf? id = none := by
  unfold vacated
  rw [List.mem_filter, Option.isNone_iff_eq_none]

/-- A leaf stored under a number takes the number off the list. -/
theorem vacated_store (s s' : Ledger V) {id : LeafId} {leaf : Leaf V}
    (hleaf : s'.leaf? = Function.update s.leaf? id (some leaf)) (hreleased : s'.released = s.released) :
    s'.vacated = s.vacated.filter (· ≠ id) := by
  unfold vacated
  rw [hreleased, hleaf, List.filter_filter]
  refine List.filter_congr fun id' _ => ?_
  by_cases heq : id' = id
  · subst heq
    simp
  · simp [heq]

/-- A number taken back comes first on the list. -/
theorem vacated_vacate (s s' : Ledger V) {id : LeafId} (hlive : s.leaf? id ≠ none)
    (hleaf : s'.leaf? = Function.update s.leaf? id none) (hreleased : s'.released = id :: s.released.filter (· ≠ id)) :
    s'.vacated = id :: s.vacated := by
  unfold vacated
  rw [hreleased, hleaf, List.filter_cons_of_pos (by simp), List.filter_filter]
  refine congrArg (id :: ·) (List.filter_congr fun id' _ => ?_)
  by_cases heq : id' = id
  · subst heq
    simpa [Option.isSome_iff_ne_none] using hlive
  · simp [heq]

end Ledger

end OrderedStore
