import Mathlib.Tactic
import OrderedStore.Proofs.FiniteMap
import OrderedStore.Proofs.OrderedMap.Holds
import OrderedStore.Proofs.Runs

/-!
# An ordered map is a finite map

A run of calls on a map is told against the same calls on a finite map. The finite map has room for as many
keys as a pool has slot numbers, and asking for one more is the fault that the pool reports; there is no
other fault, whatever the calls are. Up to there every call answers what it should, and after every call
the two agree at every key.
-/

namespace OrderedStore

/-- A call that may write a map. -/
inductive Call (V : Type)
  | insert (key : Bytes) (value : V)
  | modify (key : Bytes) (f : V → V)
  | erase (key : Bytes)
  | eraseUnder (start : Bytes)
  | clear

/-- What a call answers. -/
inductive Reply (V : Type)
  | inserted (result : Except InputError (Option V))
  | modified (found : Bool)
  | erased (old : Option V)
  | erasedUnder (count : Nat)
  | cleared

variable {V : Type}

namespace OrderedMap

/-- Make one call. A refused insertion leaves the map as it is, and so does a change to a missing key. -/
def perform (m : OrderedMap V) : Call V → Edit (Reply V × OrderedMap V)
  | .insert key value => do
    match ← m.insert key value with
    | .error e => return (.inserted (.error e), m)
    | .ok (old, m) => return (.inserted (.ok old), m)
  | .modify key f => do
    match ← m.modify? key f with
    | none => return (.modified false, m)
    | some m => return (.modified true, m)
  | .erase key => do
    let (old, m) ← m.erase key
    return (.erased old, m)
  | .eraseUnder start => do
    let (count, m) ← m.eraseUnder start
    return (.erasedUnder count, m)
  | .clear => do
    return (.cleared, ← m.clear)

end OrderedMap

namespace FiniteMap

/-- A key put into a finite map, and its old value. -/
def store (s : FiniteMap V) (key : Bytes) (value : V) : Except Fault (Option V × FiniteMap V) :=
  if key ∉ s.keys ∧ Pool.slotLimit ≤ s.card then .error .poolExhausted
  else .ok (s.value key, s.insert key value)

/-- What a finite map answers to a call, and what becomes of it. Keys longer than the limit are refused. -/
def answer (limit : Nat) (s : FiniteMap V) : Call V → Except Fault (Reply V × FiniteMap V)
  | .insert key value =>
    if key.length > limit then .ok (.inserted (.error (.keyTooLong key.length limit)), s)
    else if key ∉ s.keys ∧ Pool.slotLimit ≤ s.card then .error .poolExhausted
    else .ok (.inserted (.ok (s.value key)), s.insert key value)
  | .modify key f => .ok (.modified (s.value key).isSome, s.modify key f)
  | .erase key => .ok (.erased (s.value key), s.erase key)
  | .eraseUnder start => .ok (.erasedUnder (s.under start).card, s.eraseUnder start)
  | .clear => .ok (.cleared, empty)

end FiniteMap

namespace OrderedMap

open Edit

/-- A map and a finite map that no read can tell apart. -/
structure Agrees (m : OrderedMap V) (s : FiniteMap V) : Prop where
  get? : ∀ key, m.get? key = .ok (s.value key)
  contains : ∀ key, m.contains key = (s.value key).isSome
  size : m.size = s.card
  isEmpty : m.isEmpty = decide (s.keys = ∅)

/-- The map has this limit and holds what the finite map lists. -/
def Represents (limit : Nat) (m : OrderedMap V) (s : FiniteMap V) : Prop :=
  m.keyLimit = limit ∧ ∃ es, m.Holds es ∧ s.Lists es

variable {limit : Nat} {m : OrderedMap V} {s : FiniteMap V}

theorem represents_empty (stamp : Stamp) (limit : Nat) : Represents limit (empty V stamp limit) .empty :=
  ⟨rfl, [], holds_empty stamp limit, FiniteMap.lists_empty⟩

/-- **Reads tell the entries**, whatever else the pool holds. -/
theorem Shows.agrees {es : List (Entry V)} (h : m.Shows es) (hs : s.Lists es) : m.Agrees s := by
  refine ⟨fun key => ?_, fun key => ?_, ?_, ?_⟩
  · obtain ⟨xs, ms, ys, hp⟩ := hs.ordered.partsAt key
    rw [h.get?_eq hp, hs.value_at hp]
  · obtain ⟨xs, ms, ys, hp⟩ := hs.ordered.partsAt key
    rw [h.contains_eq hp, hs.value_at hp, Option.isSome_map]
  · rw [h.size_eq, hs.card_eq]
  · rw [Bool.eq_iff_iff, h.isEmpty_iff, decide_eq_true_eq, hs.isEmpty_iff]

theorem Represents.agrees (h : Represents limit m s) : m.Agrees s := by
  obtain ⟨-, es, hm, hs⟩ := h
  exact hm.toShows.agrees hs

theorem Represents.mem_keys_iff (h : Represents limit m s) (key : Bytes) : key ∈ s.keys ↔ m.contains key = true := by
  rw [← s.value_isSome, h.agrees.contains]

theorem perform_insert_refused {key : Bytes} {value : V} (h : key.length > m.keyLimit) :
    m.perform (.insert key value) = pure (.inserted (.error (.keyTooLong key.length m.keyLimit)), m) := by
  have hcheck : m.checkLength key = .error (.keyTooLong key.length m.keyLimit) := if_pos h
  rw [perform, OrderedMap.insert, hcheck]
  rfl

theorem perform_insert_accepted {key : Bytes} {value : V} (h : ¬ key.length > m.keyLimit) :
    m.perform (.insert key value) = do
      let (old, m) ← m.put key value
      return (.inserted (.ok old), m) := by
  have hcheck : m.checkLength key = .ok () := if_neg h
  rw [perform, OrderedMap.insert, hcheck]
  simp only [bind_assoc, pure_bind]

/-- **Putting a key** answers its old value. A key that is there keeps its slot, so only a new one can find the
pool full. -/
theorem Represents.put_meets (h : Represents limit m s) (key : Bytes) (value : V) :
    Meets (Represents limit) (m.put key value) (s.store key value) := by
  obtain ⟨rfl, es, hm, hs⟩ := h
  unfold FiniteMap.store
  rcases hs.ordered.present_or_absent key with ⟨xs, e, ys, rfl, hp⟩ | ⟨xs, ys, hp⟩
  · have hvalue : s.value e.key = some e.value := hs.value_at hp
    have hmem := s.mem_of_value hvalue
    rw [if_neg fun hfull => hfull.1 hmem, hvalue, Meets]
    refine (hm.put_old hp).mono ?_
    rintro ⟨old, m'⟩ ⟨rfl, hlimit, hm'⟩
    exact ⟨rfl, hlimit, _, hm', hs.insert (e := { e with value }) hp rfl⟩
  · have hvalue : s.value key = none := hs.value_at hp
    have hmem := s.not_mem_of_value hvalue
    by_cases hfull : Pool.slotLimit ≤ s.card
    · rw [if_pos ⟨hmem, hfull⟩, Meets]
      rw [hs.card_eq] at hfull
      exact hm.put_faults hp hfull
    · rw [if_neg fun h => hfull h.2, hvalue, Meets]
      rw [hs.card_eq, Nat.not_le] at hfull
      refine (hm.put_new hp hfull).mono ?_
      rintro ⟨old, m'⟩ ⟨rfl, hlimit, e, hkey, rfl, hm'⟩
      exact ⟨rfl, hlimit, _, hm', hs.insert hp hkey⟩

theorem Represents.modify?_yields (h : Represents limit m s) (key : Bytes) (f : V → V) :
    (m.modify? key f).Yields fun r =>
      r.isSome = (s.value key).isSome ∧ Represents limit (r.getD m) (s.modify key f) := by
  obtain ⟨rfl, es, hm, hs⟩ := h
  rcases hs.ordered.present_or_absent key with ⟨xs, e, ys, rfl, hp⟩ | ⟨xs, ys, hp⟩
  · have hvalue : s.value e.key = some e.value := hs.value_at hp
    rw [hvalue]
    refine (hm.modify?_old hp f).mono ?_
    rintro _ ⟨m', rfl, hlimit, hm'⟩
    exact ⟨rfl, hlimit, _, hm', hs.modify hp f⟩
  · have hvalue : s.value key = none := hs.value_at hp
    rw [hvalue, hm.modify?_absent hp]
    exact Yields.pure ⟨rfl, rfl, _, hm, hs.modify_absent hp f⟩

theorem Represents.erase_yields (h : Represents limit m s) (key : Bytes) :
    (m.erase key).Yields fun (old, m') => old = s.value key ∧ Represents limit m' (s.erase key) := by
  obtain ⟨rfl, es, hm, hs⟩ := h
  rcases hs.ordered.present_or_absent key with ⟨xs, e, ys, rfl, hp⟩ | ⟨xs, ys, hp⟩
  · have hvalue : s.value e.key = some e.value := hs.value_at hp
    rw [hvalue]
    refine (hm.erase_old hp).mono ?_
    rintro ⟨old, m'⟩ ⟨rfl, hlimit, hm'⟩
    exact ⟨rfl, hlimit, _, hm', hs.erase hp⟩
  · have hvalue : s.value key = none := hs.value_at hp
    have herase := hs.erase hp
    rw [← hp.absent_eq] at herase
    rw [hvalue, hm.erase_absent hp]
    exact Yields.pure ⟨rfl, rfl, _, hm, herase⟩

theorem Represents.eraseUnder_yields (h : Represents limit m s) (start : Bytes) :
    (m.eraseUnder start).Yields fun (count, m') =>
      count = (s.under start).card ∧ Represents limit m' (s.eraseUnder start) := by
  obtain ⟨rfl, es, hm, hs⟩ := h
  refine (hm.eraseUnder_yields start).mono ?_
  rintro ⟨count, m'⟩ ⟨xs, ms, ys, hp, rfl, hlimit, hm'⟩
  exact ⟨by rw [hs.card_under hp], hlimit, _, hm', hs.eraseUnder hp⟩

theorem Represents.insert_meets (h : Represents limit m s) (key : Bytes) (value : V) :
    Meets (Represents limit) (m.perform (.insert key value)) (s.answer limit (.insert key value)) := by
  by_cases hlong : key.length > limit
  · have hrefused := h
    obtain ⟨rfl, -⟩ := h
    rw [FiniteMap.answer, if_pos hlong, Meets, perform_insert_refused hlong]
    exact Yields.pure ⟨rfl, hrefused⟩
  · have hanswer : s.answer limit (.insert key value) = do
        let (old, s) ← s.store key value
        return (.inserted (.ok old), s) := by
      rw [FiniteMap.answer, if_neg hlong, FiniteMap.store]
      split <;> rfl
    rw [hanswer, perform_insert_accepted (h.1 ▸ hlong)]
    exact (h.put_meets key value).bind fun old m' s' hm' => Yields.pure ⟨rfl, hm'⟩

theorem Represents.modify_meets (h : Represents limit m s) (key : Bytes) (f : V → V) :
    Meets (Represents limit) (m.perform (.modify key f)) (s.answer limit (.modify key f)) := by
  rw [FiniteMap.answer, Meets, perform]
  refine Yields.bind (h.modify?_yields key f) ?_
  rintro (_ | m') ⟨hfound, hm'⟩
  · exact Yields.pure ⟨congrArg Reply.modified hfound, hm'⟩
  · exact Yields.pure ⟨congrArg Reply.modified hfound, hm'⟩

theorem Represents.erase_meets (h : Represents limit m s) (key : Bytes) :
    Meets (Represents limit) (m.perform (.erase key)) (s.answer limit (.erase key)) := by
  rw [FiniteMap.answer, Meets, perform]
  refine Yields.bind (h.erase_yields key) ?_
  rintro ⟨old, m'⟩ ⟨rfl, hm'⟩
  exact Yields.pure ⟨rfl, hm'⟩

theorem Represents.eraseUnder_meets (h : Represents limit m s) (start : Bytes) :
    Meets (Represents limit) (m.perform (.eraseUnder start)) (s.answer limit (.eraseUnder start)) := by
  rw [FiniteMap.answer, Meets, perform]
  refine Yields.bind (h.eraseUnder_yields start) ?_
  rintro ⟨count, m'⟩ ⟨rfl, hm'⟩
  exact Yields.pure ⟨rfl, hm'⟩

theorem Represents.clear_meets (h : Represents limit m s) :
    Meets (Represents limit) (m.perform .clear) (s.answer limit .clear) := by
  obtain ⟨rfl, es, hm, -⟩ := h
  rw [FiniteMap.answer, Meets, perform]
  refine Yields.bind hm.clear_yields ?_
  rintro m' ⟨hlimit, hm'⟩
  exact Yields.pure ⟨rfl, hlimit, _, hm', FiniteMap.lists_empty⟩

/-- **One call** on a map that represents a finite map answers what the finite map answers. -/
theorem Represents.meets (h : Represents limit m s) (call : Call V) :
    Meets (Represents limit) (m.perform call) (s.answer limit call) := by
  cases call with
  | insert key value => exact h.insert_meets key value
  | modify key f => exact h.modify_meets key f
  | erase key => exact h.erase_meets key
  | eraseUnder start => exact h.eraseUnder_meets start
  | clear => exact h.clear_meets

/-- **An ordered map refines a finite map**, for every key limit and every run of calls on a fresh map. -/
theorem performAll_follows (limit : Nat) (stamp now : Stamp) (calls : List (Call V)) :
    Follows Agrees ((performAll perform (empty V stamp limit) calls).run now)
      (answerAll (FiniteMap.answer limit) .empty calls) :=
  follows_of_meets (fun _ _ h => Represents.agrees h) (fun _ _ call h => Represents.meets h call)
    (represents_empty stamp limit) calls now

/-- A map that calls lead to from a fresh one, whatever its key limit. -/
def Reachable (m : OrderedMap V) : Prop := ∃ stamp limit, LeadsTo perform (empty V stamp limit) m

/-- **Every reachable map represents a finite map.** -/
theorem Reachable.represents (h : m.Reachable) : ∃ limit s, Represents limit m s := by
  obtain ⟨stamp, limit, hleads⟩ := h
  exact ⟨limit, hleads.stands (fun _ _ call h => Represents.meets h call) (represents_empty stamp limit)⟩

end OrderedMap

end OrderedStore
