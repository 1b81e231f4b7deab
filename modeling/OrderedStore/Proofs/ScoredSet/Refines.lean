import Mathlib.Tactic
import OrderedStore.Proofs.Runs
import OrderedStore.Proofs.ScoredSet.Reads

/-!
# A scored set is a finite map

Runs of calls on a scored set against the same calls on a finite map from members to scores and payloads. A
score that is no number or a member that is too long is refused, a batch with one of them as a whole, and
the map stays as it is. The only fault is the pool's, and it comes when a member is new and the set has as
many members as there are slot numbers: a member that changes its score gives up a slot before it takes one.
-/

namespace OrderedStore

variable {V : Type}

namespace ScoredSet

/-- A call that may write a scored set. -/
inductive Call (V : Type)
  | insert (score : Binary64) (member : Bytes) (payload : V)
  | insertAll (items : List (Item V))
  | erase (member : Bytes)
  | eraseAll (members : List Bytes)

/-- What a call answers. -/
inductive Reply (V : Type)
  | inserted (result : Except InputError Bool)
  | insertedAll (result : Except InputError Nat)
  | erased (old : Option (Scored V))
  | erasedAll (count : Nat)

/-- Make one call. A refused call leaves the set as it is. -/
def perform (z : ScoredSet V) : Call V → Edit (Reply V × ScoredSet V)
  | .insert score member payload => do
    match ← z.insert score member payload with
    | .error e => return (.inserted (.error e), z)
    | .ok (isNew, z) => return (.inserted (.ok isNew), z)
  | .insertAll items => do
    match ← z.insertAll items with
    | .error e => return (.insertedAll (.error e), z)
    | .ok (count, z) => return (.insertedAll (.ok count), z)
  | .erase member => do
    let (old, z) ← z.erase member
    return (.erased old, z)
  | .eraseAll members => do
    let (count, z) ← z.eraseAll members
    return (.erasedAll count, z)

end ScoredSet

namespace FiniteMap

/-- What is wrong with an item, if anything. The score is looked at first. -/
def refusal? (limit : Nat) (score : Binary64) (member : Bytes) : Option InputError :=
  if score.isNaN then some (.invalidScore "NaN")
  else if member.length > limit then some (.keyTooLong member.length limit)
  else none

theorem refusal?_eq_none_iff {limit : Nat} {score : Binary64} {member : Bytes} :
    refusal? limit score member = none ↔ member.length ≤ limit ∧ score.isNaN = false := by
  unfold refusal?
  cases score.isNaN <;> simp

/-- A member put into a finite map, and whether it is new. -/
def put (s : FiniteMap (Scored V)) (score : Binary64) (member : Bytes) (payload : V) :
    Except Fault (Bool × FiniteMap (Scored V)) :=
  if member ∉ s.keys ∧ Pool.slotLimit ≤ s.card then .error .poolExhausted
  else .ok (decide (member ∉ s.keys), s.insert member ⟨score, payload⟩)

/-- Members put into a finite map one after another, and how many of them were new when their turn came. -/
def putAll (s : FiniteMap (Scored V)) : List (ScoredSet.Item V) → Except Fault (Nat × FiniteMap (Scored V))
  | [] => .ok (0, s)
  | (score, member, payload) :: items => do
    let (isNew, s) ← s.put score member payload
    let (count, s) ← s.putAll items
    return (count + (if isNew then 1 else 0), s)

/-- Members taken out of a finite map one after another, and how many of them were there when their turn
came. -/
def eraseAll (s : FiniteMap (Scored V)) : List Bytes → Nat × FiniteMap (Scored V)
  | [] => (0, s)
  | member :: members =>
    let (count, rest) := (s.erase member).eraseAll members
    (count + (if member ∈ s.keys then 1 else 0), rest)

/-- What a finite map from members to scores and payloads answers to a call, and what becomes of it. -/
def answerScored (limit : Nat) (s : FiniteMap (Scored V)) :
    ScoredSet.Call V → Except Fault (ScoredSet.Reply V × FiniteMap (Scored V))
  | .insert score member payload =>
    match refusal? limit score member with
    | some e => .ok (.inserted (.error e), s)
    | none => do
      let (isNew, s) ← s.put score member payload
      return (.inserted (.ok isNew), s)
  | .insertAll items =>
    match items.findSome? fun (score, member, _) => refusal? limit score member with
    | some e => .ok (.insertedAll (.error e), s)
    | none => do
      let (count, s) ← s.putAll items
      return (.insertedAll (.ok count), s)
  | .erase member => .ok (.erased (s.value member), s.erase member)
  | .eraseAll members =>
    let (count, s) := s.eraseAll members
    .ok (.erasedAll count, s)

end FiniteMap

namespace ScoredSet

open Edit

/-- The set has this limit and holds what the finite map lists. -/
def Represents (limit : Nat) (z : ScoredSet V) (s : FiniteMap (Scored V)) : Prop :=
  z.byMember.keyLimit = limit ∧ ∃ es tiers, z.Holds es tiers ∧ s.Lists es

variable {limit : Nat} {z : ScoredSet V} {s : FiniteMap (Scored V)} {score : Binary64} {member : Bytes}
  {payload : V}

theorem Represents.agrees (h : Represents limit z s) : z.Agrees s := by
  obtain ⟨-, es, tiers, hz, hs⟩ := h
  exact hz.agrees hs

/-! ## What is refused -/

theorem check_eq (z : ScoredSet V) (score : Binary64) (member : Bytes) :
    z.check score member = match FiniteMap.refusal? z.byMember.keyLimit score member with
      | some e => .error e
      | none => .ok () := by
  unfold check asScore OrderedMap.checkLength FiniteMap.refusal?
  by_cases hnan : score.isNaN = true
  · rw [if_pos hnan, if_pos hnan]
    rfl
  · rw [if_neg hnan, if_neg hnan]
    by_cases hlong : member.length > z.byMember.keyLimit
    · rw [if_pos hlong, if_pos hlong]
      rfl
    · rw [if_neg hlong, if_neg hlong]
      rfl

/-- The first thing wrong with a batch is what is wrong with its first bad item. -/
theorem checkAll_eq (z : ScoredSet V) (items : List (Item V)) :
    z.checkAll items =
      match items.findSome? fun (score, member, _) => FiniteMap.refusal? z.byMember.keyLimit score member with
      | some e => .error e
      | none => .ok () := by
  unfold checkAll
  induction items with
  | nil => rfl
  | cons item items ih =>
      obtain ⟨score, member, payload⟩ := item
      rw [List.findSome?_cons]
      -- a batch is checked item by item, and the first error ends the check
      change (do
        z.check score member
        items.forM fun (score, member, _) => z.check score member) = _
      rw [check_eq]
      dsimp only
      cases FiniteMap.refusal? z.byMember.keyLimit score member with
      | some e => rfl
      | none => exact ih

/-- A score that is not refused has a key. -/
theorem key_of_accepted (h : FiniteMap.refusal? limit score member = none) :
    ∃ key, ScoreKey.ofScore score = .ok key :=
  ⟨_, ScoreKey.ofScore_eq_ok_iff.2 ⟨(FiniteMap.refusal?_eq_none_iff.1 h).2, rfl⟩⟩

/-! ## Calls -/

theorem Represents.put_meets (h : Represents limit z s) (hok : FiniteMap.refusal? limit score member = none) :
    Meets (Represents limit) (z.put score member payload) (s.put score member payload) := by
  obtain ⟨rfl, es, tiers, hz, hs⟩ := h
  obtain ⟨key, hkey⟩ := key_of_accepted hok
  -- the map by member does not refuse what the set has accepted
  have hlen : member.length ≤ z.byMember.keyLimit := (FiniteMap.refusal?_eq_none_iff.1 hok).1
  unfold FiniteMap.put
  -- a member that is there gives up its slot before it takes another, so only a new one can find the pool full
  rcases hs.ordered.present_or_absent member with ⟨xs, e, ys, rfl, hp⟩ | ⟨xs, ys, hp⟩
  · have hmem : e.key ∈ s.keys := s.mem_of_value (hs.value_at hp)
    rw [if_neg fun hfull => hfull.1 hmem, Meets]
    refine (hz.put_old hlen hp hkey).mono ?_
    rintro ⟨isNew, z'⟩ ⟨rfl, hlimit, tiers', hz'⟩
    refine ⟨by simp [hmem], hlimit, _, tiers', hz', ?_⟩
    exact hs.insert (e := { e with value := ⟨score, payload⟩ }) hp rfl
  · have hmem : member ∉ s.keys := s.not_mem_of_value (hs.value_at hp)
    by_cases hfull : Pool.slotLimit ≤ s.card
    · rw [if_pos ⟨hmem, hfull⟩, Meets]
      exact hz.put_faults hp hkey (hs.card_eq ▸ hfull)
    · rw [if_neg fun h => hfull h.2, Meets]
      rw [hs.card_eq, Nat.not_le] at hfull
      refine (hz.put_new hlen hp hkey hfull).mono ?_
      rintro ⟨isNew, z'⟩ ⟨rfl, hlimit, e, tiers', hek, hvalue, hz'⟩
      refine ⟨by simp [hmem], hlimit, _, tiers', hz', ?_⟩
      rw [← hvalue]
      exact hs.insert hp hek

/-- A batch of good items, by induction along it: every item meets its put on the map that the items before it
left. -/
theorem Represents.putAll_meets (h : Represents limit z s) {items : List (Item V)}
    (hok : items.findSome? (fun (score, member, _) => FiniteMap.refusal? limit score member) = none) :
    Meets (Represents limit) (z.putAll items) (s.putAll items) := by
  induction items generalizing z s with
  | nil => exact Yields.pure ⟨rfl, h⟩
  | cons item items ih =>
      obtain ⟨score, member, payload⟩ := item
      obtain ⟨hfirst, hrest⟩ := List.forall_mem_cons.1 (List.findSome?_eq_none_iff.1 hok)
      rw [FiniteMap.putAll, putAll]
      refine (h.put_meets hfirst).bind fun isNew z' s' hz' => ?_
      exact (ih hz' (List.findSome?_eq_none_iff.2 hrest)).bind fun count z'' s'' hz'' => Yields.pure ⟨rfl, hz''⟩

theorem Represents.erase_yields (h : Represents limit z s) (member : Bytes) :
    (z.erase member).Yields fun (old, z') => old = s.value member ∧ Represents limit z' (s.erase member) := by
  obtain ⟨rfl, es, tiers, hz, hs⟩ := h
  rcases hs.ordered.present_or_absent member with ⟨xs, e, ys, rfl, hp⟩ | ⟨xs, ys, hp⟩
  · have hvalue : s.value e.key = some e.value := hs.value_at hp
    refine (hz.erase_old hp).mono ?_
    rintro ⟨old, z'⟩ ⟨rfl, hlimit, tiers', hz'⟩
    exact ⟨hvalue.symm, hlimit, _, tiers', hz', hs.erase hp⟩
  · have hvalue : s.value member = none := hs.value_at hp
    have herase := hs.erase hp
    rw [← hp.absent_eq] at herase
    rw [hz.erase_absent hp]
    exact Yields.pure ⟨hvalue.symm, rfl, _, tiers, hz, herase⟩

theorem Represents.eraseAll_yields (h : Represents limit z s) (members : List Bytes) :
    (z.eraseAll members).Yields fun (count, z') =>
      count = (s.eraseAll members).1 ∧ Represents limit z' (s.eraseAll members).2 := by
  induction members generalizing z s with
  | nil => exact Yields.pure ⟨rfl, h⟩
  | cons member members ih =>
      rw [ScoredSet.eraseAll]
      refine Yields.bind (h.erase_yields member) ?_
      rintro ⟨_, z'⟩ ⟨rfl, hz'⟩
      refine Yields.bind (ih hz') ?_
      rintro ⟨_, z''⟩ ⟨rfl, hz''⟩
      refine Yields.pure ⟨?_, hz''⟩
      rw [FiniteMap.eraseAll]
      dsimp only
      simp only [s.value_isSome]

theorem Represents.insert_meets (h : Represents limit z s) (score : Binary64) (member : Bytes) (payload : V) :
    Meets (Represents limit) (z.perform (.insert score member payload))
      (s.answerScored limit (.insert score member payload)) := by
  have hcheck := z.check_eq score member
  rw [h.1] at hcheck
  rw [FiniteMap.answerScored, perform, ScoredSet.insert, hcheck]
  cases hrefusal : FiniteMap.refusal? limit score member with
  | some e => exact Yields.pure ⟨rfl, h⟩
  | none =>
      simp only [bind_assoc, pure_bind]
      exact (h.put_meets hrefusal).bind fun isNew z' s' hz' => Yields.pure ⟨rfl, hz'⟩

theorem Represents.insertAll_meets (h : Represents limit z s) (items : List (Item V)) :
    Meets (Represents limit) (z.perform (.insertAll items)) (s.answerScored limit (.insertAll items)) := by
  have hcheck := z.checkAll_eq items
  rw [h.1] at hcheck
  rw [FiniteMap.answerScored, perform, ScoredSet.insertAll, hcheck]
  cases hrefusal : items.findSome? fun (score, member, _) => FiniteMap.refusal? limit score member with
  | some e => exact Yields.pure ⟨rfl, h⟩
  | none =>
      simp only [bind_assoc, pure_bind]
      exact (h.putAll_meets hrefusal).bind fun count z' s' hz' => Yields.pure ⟨rfl, hz'⟩

/-- **One call** on a scored set answers what the finite map answers. -/
theorem Represents.meets (h : Represents limit z s) (call : Call V) :
    Meets (Represents limit) (z.perform call) (s.answerScored limit call) := by
  cases call with
  | insert score member payload => exact h.insert_meets score member payload
  | insertAll items => exact h.insertAll_meets items
  | erase member =>
      rw [FiniteMap.answerScored, perform]
      refine Yields.bind (h.erase_yields member) ?_
      rintro ⟨_, z'⟩ ⟨rfl, hz'⟩
      exact Yields.pure ⟨rfl, hz'⟩
  | eraseAll members =>
      rw [FiniteMap.answerScored, perform]
      refine Yields.bind (h.eraseAll_yields members) ?_
      rintro ⟨_, z'⟩ ⟨rfl, hz'⟩
      exact Yields.pure ⟨rfl, hz'⟩

/-- **A scored set refines a finite map** from members to scores and payloads, for every limit and every run of
calls on a fresh set. -/
theorem calls_follow (limit : Nat) (now : Stamp) (calls : List (Call V)) :
    Follows Agrees ((do performAll perform (← empty V limit) calls).run now)
      (answerAll (FiniteMap.answerScored limit) .empty calls) := by
  obtain ⟨z, next, hrun, hlimit, hz⟩ := empty_yields (V := V) limit now
  rw [run_bind_ok hrun]
  exact follows_of_meets (fun _ _ h => Represents.agrees h) (fun _ _ call h => Represents.meets h call)
    ⟨hlimit, [], [], hz, FiniteMap.lists_empty⟩ calls next

/-- A set that calls lead to from a fresh one, whatever its limit. -/
def Reachable (z : ScoredSet V) : Prop :=
  ∃ limit now fresh next, (empty V limit).run now = .ok (fresh, next) ∧ LeadsTo perform fresh z

/-- **Every reachable set represents a finite map** from members to scores and payloads. -/
theorem Reachable.represents (h : z.Reachable) : ∃ limit s, Represents limit z s := by
  obtain ⟨limit, now, fresh, next, hempty, hleads⟩ := h
  obtain ⟨fresh', next', hrun, hlimit, hz⟩ := empty_yields (V := V) limit now
  obtain ⟨rfl, -⟩ := Prod.mk.inj (Except.ok.inj (hrun.symm.trans hempty))
  exact ⟨limit, hleads.stands (fun _ _ call h => Represents.meets h call) ⟨hlimit, [], [], hz, FiniteMap.lists_empty⟩⟩

end ScoredSet

end OrderedStore
