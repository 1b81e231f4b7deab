import Mathlib.Tactic
import OrderedStore.Proofs.OrderedMap.Refines
import OrderedStore.Proofs.ScoredSet.Refines

/-!
# Batches of members

A batch is looked at as a whole before its first item is written, and what it is looked at for is all that a
single insertion asks of a score and of a member. So a batch is refused before anything is written, for the
first item that would be refused, or else none of its items is refused when its turn comes, and the batch is its
items inserted one after another. What that amounts to does not hinge on the order of different members: every
member of the batch has what its last item gives it, and those are new that were not there before.
-/

namespace OrderedStore

variable {V : Type}

namespace ScoredSet

/-- What is wrong with the first bad item of a batch. -/
def refusalOf? (limit : Nat) (items : List (Item V)) : Option InputError :=
  items.findSome? fun (score, member, _) => FiniteMap.refusal? limit score member

/-- The members that a batch lists. -/
def membersOf (items : List (Item V)) : Finset Bytes := (items.map fun (_, member, _) => member).toFinset

/-- What the last item for a member gives it. -/
def latest? (items : List (Item V)) (member : Bytes) : Option (Scored V) :=
  match items with
  | [] => none
  | (score, member', payload) :: items =>
    (latest? items member).or (if member' = member then some ⟨score, payload⟩ else none)

/-- Insert items one after another, each looked at when its turn comes, up to the first that is refused. -/
def insertEach (z : ScoredSet V) : List (Item V) → Edit (Except InputError (Nat × ScoredSet V))
  | [] => return .ok (0, z)
  | (score, member, payload) :: items => do
    match ← z.insert score member payload with
    | .error e => return .error e
    | .ok (isNew, z) =>
      match ← z.insertEach items with
      | .error e => return .error e
      | .ok (count, z) => return .ok (count + (if isNew then 1 else 0), z)

theorem membersOf_cons (score : Binary64) (member : Bytes) (payload : V) (items : List (Item V)) :
    membersOf ((score, member, payload) :: items) = Insert.insert member (membersOf items) := by
  unfold membersOf
  rw [List.map_cons, List.toFinset_cons]

end ScoredSet

namespace FiniteMap

open ScoredSet (Item membersOf latest?)

/-- The members of a batch that are not there yet. -/
def fresh (s : FiniteMap (Scored V)) (items : List (Item V)) : Finset Bytes := membersOf items \ s.keys

/-- The map with all items of a batch, later ones over earlier ones. -/
def overlay (s : FiniteMap (Scored V)) : List (Item V) → FiniteMap (Scored V)
  | [] => s
  | (score, member, payload) :: items => (s.insert member ⟨score, payload⟩).overlay items

/-- **The last item for a member wins**, and members that are not in the batch keep what they have. -/
theorem overlay_value (s : FiniteMap (Scored V)) (items : List (Item V)) (member : Bytes) :
    (s.overlay items).value member = (latest? items member).or (s.value member) := by
  induction items generalizing s with
  | nil => rfl
  | cons item items ih =>
      obtain ⟨score, member', payload⟩ := item
      rw [overlay, ih, latest?, Option.or_assoc]
      congr 1
      change Function.update s.value member' (some ⟨score, payload⟩) member = _
      by_cases hmember : member' = member
      · rw [hmember, Function.update_self, if_pos rfl]
        rfl
      · rw [Function.update_of_ne (Ne.symm hmember), if_neg hmember]
        rfl

/-- There are slot numbers for the new members of a batch, if it has any. -/
def Room (s : FiniteMap (Scored V)) (items : List (Item V)) : Prop :=
  (s.fresh items).card = 0 ∨ s.card + (s.fresh items).card ≤ Pool.slotLimit

/-- An item is for a member that is there, or for one that is new once and no longer after it. -/
theorem card_fresh_cons (s : FiniteMap (Scored V)) (score : Binary64) (member : Bytes) (payload : V)
    (items : List (Item V)) :
    (s.fresh ((score, member, payload) :: items)).card =
      ((s.insert member ⟨score, payload⟩).fresh items).card + if member ∈ s.keys then 0 else 1 := by
  have hrest : (s.insert member ⟨score, payload⟩).fresh items = membersOf items \ Insert.insert member s.keys := rfl
  rw [hrest]
  unfold fresh
  rw [ScoredSet.membersOf_cons]
  by_cases hmem : member ∈ s.keys
  · rw [if_pos hmem, Finset.insert_sdiff_of_mem _ hmem, Finset.insert_eq_of_mem hmem, Nat.add_zero]
  · have hsplit : Insert.insert member (membersOf items) \ s.keys =
        Insert.insert member (membersOf items \ Insert.insert member s.keys) := by
      ext member'
      by_cases heq : member' = member
      · simp [heq, hmem]
      · simp [heq]
    rw [if_neg hmem, hsplit, Finset.card_insert_of_notMem (by simp)]

theorem card_insert (s : FiniteMap (Scored V)) (member : Bytes) (scored : Scored V) :
    (s.insert member scored).card = s.card + if member ∈ s.keys then 0 else 1 := by
  unfold card insert
  dsimp only
  split
  · rename_i hmem
    rw [Finset.insert_eq_of_mem hmem, Nat.add_zero]
  · rename_i hmem
    exact Finset.card_insert_of_notMem hmem

/-- The first item of a batch takes a slot if its member is new, and the rest goes into the map that has it. -/
theorem putAll_cons (s : FiniteMap (Scored V)) (score : Binary64) (member : Bytes) (payload : V)
    (items : List (Item V)) :
    s.putAll ((score, member, payload) :: items) =
      if member ∉ s.keys ∧ Pool.slotLimit ≤ s.card then .error .poolExhausted
      else do
        let (count, s') ← (s.insert member ⟨score, payload⟩).putAll items
        return (count + (if member ∈ s.keys then 0 else 1), s') := by
  rw [putAll, put]
  split
  · rfl
  · change (do let (count, s') ← (s.insert member ⟨score, payload⟩).putAll items; _) = _
    congr 1
    funext result
    by_cases hmem : member ∈ s.keys
    · simp [hmem]
    · simp [hmem]

/-- **A batch that there is room for counts its new members**, each once, and is laid over what was there. -/
theorem putAll_eq (s : FiniteMap (Scored V)) (items : List (Item V)) :
    (s.Room items → s.putAll items = .ok ((s.fresh items).card, s.overlay items)) ∧
      (¬ s.Room items → s.putAll items = .error .poolExhausted) := by
  induction items generalizing s with
  | nil =>
      have hnone : (s.fresh []).card = 0 := by simp [fresh, membersOf]
      exact ⟨fun _ => by rw [hnone]; rfl, fun hfull => absurd (Or.inl hnone) hfull⟩
  | cons item items ih =>
      obtain ⟨score, member, payload⟩ := item
      obtain ⟨hroom, hfull⟩ := ih (s.insert member ⟨score, payload⟩)
      unfold Room at hroom hfull ⊢
      rw [s.card_insert] at hroom hfull
      rw [s.putAll_cons, overlay, s.card_fresh_cons]
      generalize ((s.insert member ⟨score, payload⟩).fresh items).card = n at hroom hfull ⊢
      by_cases hmem : member ∈ s.keys
      · -- a member that is there takes no slot
        rw [if_pos hmem] at hroom hfull ⊢
        rw [if_neg fun h => h.1 hmem]
        refine ⟨fun h => ?_, fun h => ?_⟩
        · rw [hroom h]
          rfl
        · rw [hfull h]
          rfl
      · rw [if_neg hmem] at hroom hfull ⊢
        by_cases hlimit : Pool.slotLimit ≤ s.card
        · rw [if_pos ⟨hmem, hlimit⟩]
          exact ⟨fun h => absurd h (by omega), fun _ => rfl⟩
        · rw [if_neg fun h => hlimit h.2]
          refine ⟨fun h => ?_, fun h => ?_⟩
          · rw [hroom (by omega)]
            rfl
          · rw [hfull (by omega)]
            rfl

end FiniteMap

namespace ScoredSet

open Edit

variable {limit : Nat} {z : ScoredSet V} {s : FiniteMap (Scored V)}

/-- **None of the items of a good batch is refused when its turn comes**, so the batch is its items inserted one after
another. -/
theorem Represents.insertEach_run (h : Represents limit z s) {items : List (Item V)}
    (hok : refusalOf? limit items = none) (now : Stamp) :
    (z.insertEach items).run now = (do return .ok (← z.putAll items) : Edit (Except InputError _)).run now := by
  induction items generalizing z s now with
  | nil => rfl
  | cons item items ih =>
      obtain ⟨score, member, payload⟩ := item
      obtain ⟨hfirst, hrest⟩ := List.forall_mem_cons.1 (List.findSome?_eq_none_iff.1 hok)
      have haccepted : FiniteMap.refusal? limit score member = none := hfirst
      have hcheck := z.check_eq score member
      rw [h.1, haccepted] at hcheck
      have hmeets : Meets (Represents limit) (z.put score member payload) (s.put score member payload) :=
        h.put_meets haccepted
      rw [insertEach, putAll, insert, hcheck]
      simp only [bind_assoc, pure_bind]
      cases hput : (z.put score member payload).run now with
      | error fault => rw [run_bind_error hput, run_bind_error hput]
      | ok result =>
          obtain ⟨⟨isNew, z'⟩, next⟩ := result
          obtain ⟨s', -, hz'⟩ := hmeets.of_run hput
          rw [run_bind_ok hput, run_bind_ok hput]
          dsimp only
          rw [StateT.run_bind, ih hz' (List.findSome?_eq_none_iff.2 hrest) next]
          simp only [StateT.run_bind, bind_assoc]
          rfl

/-- The members that a batch lists and the set does not have yet. -/
def newcomersOf (z : ScoredSet V) (items : List (Item V)) : Finset Bytes :=
  (membersOf items).filter fun member => z.byMember.contains member = false

theorem Represents.byMember (h : Represents limit z s) : OrderedMap.Represents limit z.byMember s := by
  obtain ⟨hlimit, es, tiers, hz, hs⟩ := h
  exact ⟨hlimit, es, hz.members, hs⟩

theorem Represents.newcomersOf_eq (h : Represents limit z s) (items : List (Item V)) :
    z.newcomersOf items = s.fresh items := by
  ext member
  rw [newcomersOf, FiniteMap.fresh, Finset.mem_filter, Finset.mem_sdiff, h.byMember.mem_keys_iff, Bool.not_eq_true]

/-- No set has more members than there are slot numbers. -/
theorem Represents.card_le (h : Represents limit z s) : s.card ≤ Pool.slotLimit := by
  obtain ⟨-, es, hm, hs⟩ := h.byMember
  have hlive := hm.chained.sound.live_le
  rwa [hm.live, ← hs.card_eq] at hlive

theorem Represents.room_iff (h : Represents limit z s) (items : List (Item V)) :
    s.Room items ↔ z.card + (z.newcomersOf items).card ≤ Pool.slotLimit := by
  have hle := h.card_le
  rw [FiniteMap.Room, h.agrees.card, h.newcomersOf_eq]
  omega

/-- What becomes of a batch. With a bad item it is refused for the first of them, and what is left is the set itself.
Otherwise it is its items inserted one after another, and its new members are counted, each once; every member of the
batch has what its last item gives it, and every other one what it had. Only slot numbers may run out. -/
structure AddsWhole (z : ScoredSet V) (items : List (Item V)) : Prop where
  refused : ∀ reason, refusalOf? z.byMember.keyLimit items = some reason → ∀ now,
    (z.perform (.insertAll items)).run now = .ok ((.insertedAll (.error reason), z), now)
  each : refusalOf? z.byMember.keyLimit items = none → ∀ now,
    (z.insertAll items).run now = (z.insertEach items).run now
  counted : refusalOf? z.byMember.keyLimit items = none → z.card + (z.newcomersOf items).card ≤ Pool.slotLimit →
    (z.perform (.insertAll items)).Yields fun (reply, z') =>
      reply = .insertedAll (.ok (z.newcomersOf items).card) ∧
        ∀ member, z'.get? member = (latest? items member).elim (z.get? member) fun scored => .ok (some scored)
  exhausted : refusalOf? z.byMember.keyLimit items = none → Pool.slotLimit < z.card + (z.newcomersOf items).card →
    (z.perform (.insertAll items)).Faults .poolExhausted

theorem Represents.addsWhole (h : Represents limit z s) (items : List (Item V)) : z.AddsWhole items where
  refused := by
    intro reason hreason now
    unfold refusalOf? at hreason
    rw [perform, ScoredSet.insertAll, checkAll_eq, hreason]
    rfl
  each := by
    intro hok now
    rw [h.1] at hok
    rw [h.insertEach_run hok now]
    unfold refusalOf? at hok
    rw [ScoredSet.insertAll, checkAll_eq, h.1, hok]
  counted := by
    intro hok hroom
    rw [h.1] at hok
    unfold refusalOf? at hok
    have hmeets := h.insertAll_meets items
    rw [FiniteMap.answerScored, hok] at hmeets
    dsimp only at hmeets
    rw [(s.putAll_eq items).1 ((h.room_iff items).2 hroom)] at hmeets
    refine Yields.mono hmeets ?_
    rintro ⟨reply, z'⟩ ⟨hreply, hz'⟩
    refine ⟨by rw [hreply, h.newcomersOf_eq], fun member => ?_⟩
    rw [hz'.agrees.get?, h.agrees.get?, s.overlay_value]
    cases latest? items member <;> rfl
  exhausted := by
    intro hok hfull
    rw [h.1] at hok
    unfold refusalOf? at hok
    have hmeets := h.insertAll_meets items
    rw [FiniteMap.answerScored, hok] at hmeets
    dsimp only at hmeets
    rwa [(s.putAll_eq items).2 fun hroom => Nat.not_le_of_lt hfull ((h.room_iff items).1 hroom)] at hmeets

end ScoredSet

end OrderedStore
