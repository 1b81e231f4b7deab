import Mathlib.Tactic
import OrderedStore.Proofs.Acts
import OrderedStore.Proofs.OrderedMap.Versions
import OrderedStore.Proofs.ScoredSet.Wellformed
import OrderedStore.Proofs.Store.Questions
import OrderedStore.Proofs.Store.Refines

/-!
# Calls that find a pool full

A pool is full once it has handed out every slot number there is. This file says of each call which pool it takes
slots from, in the middle of a batch or of a transaction too, and that nothing but finding this pool full makes the
call fault. A member of a scored set takes a slot in two pools, of which the map by member is full first: it has a
leaf for every member, and so has the chain.
-/

namespace OrderedStore

open Edit

namespace Pool

variable {V : Type} {p : Pool V}

/-- Every slot number there is has been handed out. -/
def Full (p : Pool V) : Prop := slotLimit ≤ p.opened

/-- Every live leaf is in a slot that was handed out. -/
theorem Sound.live_le_opened (hp : p.Sound) : p.live ≤ p.opened := by
  obtain ⟨ids, -, -, -, hcount⟩ := hp.free
  exact hcount ▸ Nat.le_add_right p.live ids.length

end Pool

/-! ## Maps -/

theorem FiniteMap.store_exhausted {V : Type} {s : FiniteMap V} {key : Bytes} {value : V} :
    ExhaustedOnly (Pool.slotLimit ≤ s.card) (s.store key value) := by
  unfold store
  split
  · rename_i hfull
    exact ExhaustedOnly.error hfull.2
  · exact ExhaustedOnly.ok

namespace OrderedMap

variable {V : Type} {limit : Nat} {m : OrderedMap V} {s : FiniteMap V}

/-- The call takes a slot, and there is none left. -/
def FindsFull (m : OrderedMap V) : Call V → Prop
  | .insert .. => m.leaves.Full
  | .modify .. | .erase _ | .eraseUnder _ | .clear => False

/-- A map with as many keys as there are slot numbers has used them all. -/
theorem Represents.full (h : Represents limit m s) (hcard : Pool.slotLimit ≤ s.card) : m.leaves.Full := by
  obtain ⟨-, es, hm, hs⟩ := h
  have hopened := hm.chained.sound.live_le_opened
  rw [hm.live, ← hs.card_eq] at hopened
  exact hcard.trans hopened

theorem Represents.answer_exhausted (h : Represents limit m s) (call : Call V) :
    ExhaustedOnly (m.FindsFull call) (s.answer limit call) := by
  cases call with
  | insert key value => exact (OrderedMap.answer_exhausted _).mono h.full
  | modify key f => exact ExhaustedOnly.ok
  | erase key => exact ExhaustedOnly.ok
  | eraseUnder start => exact ExhaustedOnly.ok
  | clear => exact ExhaustedOnly.ok

end OrderedMap

/-! ## Scored sets -/

namespace ScoredSet

variable {V : Type} {limit : Nat} {z : ScoredSet V} {s : FiniteMap (Scored V)}

/-- A batch comes to a member that finds the set full, with the members before it put in. -/
def BatchFindsFull (z : ScoredSet V) : List (Item V) → Stamp → Prop
  | [], _ => False
  | (score, member, payload) :: items, now =>
    z.byMember.leaves.Full ∨
      ∃ isNew z' next, (z.put score member payload).run now = .ok ((isNew, z'), next) ∧ z'.BatchFindsFull items next

/-- The call takes slots, and comes to a member for which there is none left. -/
def FindsFull (z : ScoredSet V) : Call V → Stamp → Prop
  | .insert .., _ => z.byMember.leaves.Full
  | .insertAll items, now => z.BatchFindsFull items now
  | .erase _, _ | .eraseAll _, _ => False

theorem Represents.put_exhausted (h : Represents limit z s) {score : Binary64} {member : Bytes} {payload : V} :
    ExhaustedOnly z.byMember.leaves.Full (s.put score member payload) := by
  obtain ⟨hlimit, es, tiers, hz, hs⟩ := h
  have hmembers : OrderedMap.Represents limit z.byMember s := ⟨hlimit, es, hz.members, hs⟩
  exact FiniteMap.put_exhausted.mono hmembers.full

/-- Along a batch, every member is put into the set that the members before it left. -/
theorem Represents.putAll_exhausted (h : Represents limit z s) {items : List (Item V)}
    (hok : items.findSome? (fun (score, member, _) => FiniteMap.refusal? limit score member) = none) (now : Stamp) :
    ExhaustedOnly (z.BatchFindsFull items now) (s.putAll items) := by
  induction items generalizing z s now with
  | nil => exact ExhaustedOnly.ok
  | cons item items ih =>
      obtain ⟨score, member, payload⟩ := item
      obtain ⟨hfirst, hrest⟩ := List.forall_mem_cons.1 (List.findSome?_eq_none_iff.1 hok)
      have hmeets : Meets (Represents limit) (z.put score member payload) (s.put score member payload) :=
        h.put_meets hfirst
      rw [FiniteMap.putAll, BatchFindsFull]
      cases hput : s.put score member payload with
      | error fault =>
          obtain ⟨rfl, hfull⟩ := h.put_exhausted fault hput
          exact ExhaustedOnly.error (Or.inl hfull)
      | ok result =>
          rw [hput] at hmeets
          obtain ⟨⟨isNew, z'⟩, next, hrun, -, hz'⟩ := hmeets now
          have hlater := ih hz' (List.findSome?_eq_none_iff.2 hrest) next
          show ExhaustedOnly _ (result.2.putAll items >>= _)
          refine (hlater.mono fun hfull => ?_).bind fun counted => ExhaustedOnly.ok
          exact Or.inr ⟨isNew, z', next, hrun, hfull⟩

theorem Represents.answer_exhausted (h : Represents limit z s) (call : Call V) (now : Stamp) :
    ExhaustedOnly (z.FindsFull call now) (s.answerScored limit call) := by
  cases call with
  | insert score member payload =>
      rw [FiniteMap.answerScored]
      split
      · exact ExhaustedOnly.ok
      · exact h.put_exhausted.bind fun _ => ExhaustedOnly.ok
  | insertAll items =>
      rw [FiniteMap.answerScored]
      split
      · exact ExhaustedOnly.ok
      · rename_i hok
        exact (h.putAll_exhausted hok now).bind fun _ => ExhaustedOnly.ok
  | erase member => exact ExhaustedOnly.ok
  | eraseAll members => exact ExhaustedOnly.ok

end ScoredSet

/-! ## Keyspaces and transactions -/

/-- The scored set that members are added to. It is made if it is not there. -/
def Keyspace.startSet (k : Keyspace) (key : Bytes) : Edit (ScoredSet Bytes) := do
  match ← k.set? key with
  | some z => return z
  | none => ScoredSet.empty Bytes k.config.keyLimit

theorem Keyspace.Represents.startSet_yields {config : Config} {k : Keyspace} {c : Contents}
    (h : k.Represents config c) (key : Bytes) :
    (k.startSet key).Yields fun z => ScoredSet.Represents config.keyLimit z (c.members key) := by
  obtain ⟨found, hfound, hrel⟩ := h.set?_eq key
  refine Yields.bind_lift hfound ?_
  generalize hvalue : c.sets.value key = met at hrel
  cases hrel with
  | none =>
      rw [c.members_of_absent hvalue, h.settings]
      exact ScoredSet.Represents.empty_yields config.keyLimit
  | some hz => exact Yields.pure (c.members_of_value hvalue ▸ hz)

namespace Transaction

variable {config : Config} {t : Transaction} {c : Contents}

/-- The write takes slots, and comes to a pool that has none left: that of the values, that of the sets, or that of
the set that members are added to. -/
def FindsFull (t : Transaction) : Command → Stamp → Prop
  | .set .., _ => t.space.values.leaves.Full
  | .addMembers key items, now =>
    t.space.sets.leaves.Full ∨
      ∃ z next, (t.space.startSet key).run now = .ok (z, next) ∧ z.BatchFindsFull items next
  | .delete _, _ | .deleteUnder _, _ | .removeMembers .., _ | .dropSet _, _ => False

theorem Represents.answer_exhausted (h : t.Represents config c) (cmd : Command) (now : Stamp) :
    ExhaustedOnly (t.FindsFull cmd now) (c.answer config cmd) := by
  cases cmd with
  | set key value =>
      rw [Contents.answer]
      split
      · exact ExhaustedOnly.ok
      · refine ExhaustedOnly.bind (FiniteMap.store_exhausted.mono ?_) fun _ => ExhaustedOnly.ok
        exact h.values.full
  | addMembers key items =>
      rw [Contents.answer]
      split
      · exact ExhaustedOnly.ok
      · split
        · exact ExhaustedOnly.ok
        · split
          · exact ExhaustedOnly.ok
          · rename_i hok
            obtain ⟨z, next, hrun, hz⟩ := Keyspace.Represents.startSet_yields h key now
            obtain ⟨zs, hzs, hmatch⟩ := h.sets
            refine ((hz.putAll_exhausted hok next).mono ?_).bind fun counted => ?_
            · intro hfull
              exact Or.inr ⟨z, next, hrun, hfull⟩
            · show ExhaustedOnly _ (if _ then _ else _)
              split
              · rename_i hfull
                exact ExhaustedOnly.error (Or.inl (hzs.full (hmatch.card_eq ▸ hfull.2)))
              · exact ExhaustedOnly.ok
  | delete key => exact ExhaustedOnly.ok
  | deleteUnder start => exact ExhaustedOnly.ok
  | removeMembers key gone => exact ExhaustedOnly.ok
  | dropSet key => exact ExhaustedOnly.ok

end Transaction

section Script

variable {Q : Type} {A : Q → Type} {ε α : Type}

/-- The script comes to a write that finds a pool full. -/
def Script.FindsFull (look : Keyspace → (q : Q) → Except Fault (A q)) :
    Script A ε α → Transaction → Stamp → Prop
  | .done _, _, _ | .fail _, _, _ => False
  | .ask q next, t, now => ∃ answer, look t.space q = .ok answer ∧ (next answer).FindsFull look t now
  | .write cmd next, t, now =>
    t.FindsFull cmd now ∨ ∃ answer t' later, (t.perform cmd).run now = .ok ((answer, t'), later) ∧
      (next answer).FindsFull look t' later

/-- The operation comes to a write that finds a pool of the writer's state full. -/
def Store.FindsFull (look : Keyspace → (q : Q) → Except Fault (A q)) (s : Store) : Operation A ε α → Prop
  | .write cmd => ({ space := s.working } : Transaction).FindsFull cmd s.supply
  | .transaction script => script.FindsFull look { space := s.working } s.supply

end Script

end OrderedStore
