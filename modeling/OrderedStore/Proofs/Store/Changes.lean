import Mathlib.Tactic
import OrderedStore.Proofs.Edit
import OrderedStore.Store.Basic

/-!
# What a write changes

The answer to a write tells whether anything changed. A transaction that hears of a change from any of its
writes remembers it, and as long as it has heard of none its keyspace is the one it started with. None of
this rests on the state being sound.
-/

namespace OrderedStore

open Edit

/-! ## Removing what is there -/

theorem OrderedMap.find?_of_get? {V : Type} {m : OrderedMap V} {key : Bytes} {value : V}
    (h : m.get? key = .ok (some value)) : ∃ link, m.trie.find? key = some link := by
  refine Option.ne_none_iff_exists'.1 fun hnone => ?_
  unfold OrderedMap.get? at h
  rw [hnone] at h
  cases h

theorem OrderedMap.erase_ensures {V : Type} {m : OrderedMap V} {key : Bytes} {link : Link}
    (h : m.trie.find? key = some link) : (m.erase key).Ensures fun (old, _) => old.isSome := by
  unfold OrderedMap.erase Trie.erase
  rw [h]
  refine Ensures.bind (P := fun r => r.1.isSome) ?_ fun r hr => Ensures.pure hr
  exact Ensures.after fun root => Ensures.after fun leaves => Ensures.after fun r => Ensures.pure rfl

namespace ScoredSet

variable {V : Type} {z : ScoredSet V} {member : Bytes}

theorem erase_ensures {scored : Scored V} (h : z.get? member = .ok (some scored)) :
    (z.erase member).Ensures fun (old, _) => old.isSome := by
  obtain ⟨link, hfind⟩ := OrderedMap.find?_of_get? h
  unfold erase
  refine Ensures.bind (OrderedMap.erase_ensures hfind) ?_
  rintro ⟨old, byMember⟩ hold
  obtain ⟨scored, rfl⟩ := Option.isSome_iff_exists.1 hold
  exact Ensures.after fun key => Ensures.after fun z => Ensures.pure rfl

/-- A batch that starts with a member removes at least one. -/
theorem eraseAll_ensures {members : List Bytes} {scored : Scored V} (h : z.get? member = .ok (some scored)) :
    (z.eraseAll (member :: members)).Ensures fun (count, _) => 0 < count := by
  rw [eraseAll]
  refine Ensures.bind (erase_ensures h) ?_
  rintro ⟨old, z'⟩ hold
  refine Ensures.after ?_
  rintro ⟨count, z''⟩
  refine Ensures.pure ?_
  dsimp only at hold ⊢
  rw [if_pos hold]
  exact Nat.succ_pos count

end ScoredSet

/-- What a filter lets through passes its test. -/
theorem Edit.Ensures.filterM {α : Type} {f : α → Edit Bool} {P : α → Prop}
    (hf : ∀ a, (f a).Ensures fun b => b = true → P a) (l : List α) :
    (l.filterM f).Ensures fun l' => ∀ a ∈ l', P a := by
  -- the filter collects what passes, last first
  have haux : ∀ (l acc : List α), (∀ a ∈ acc, P a) → (l.filterAuxM f acc).Ensures fun l' => ∀ a ∈ l', P a := by
    intro l
    induction l with
    | nil => exact fun acc hacc => Ensures.pure hacc
    | cons a l ih =>
        intro acc hacc
        rw [List.filterAuxM]
        refine Ensures.bind (hf a) fun b hb => ih _ ?_
        cases b with
        | false => exact hacc
        | true => exact List.forall_mem_cons.2 ⟨hb rfl, hacc⟩
  unfold List.filterM
  refine Ensures.bind (haux l [] (by simp)) fun l' hl' => Ensures.pure ?_
  simpa using hl'

/-! ## Writes -/

/-- Whether the answer to a write tells of a change. -/
def Command.changes : (c : Command) → c.Answer → Bool
  | .set .., result => Except.isOk result
  | .delete .., old => Option.isSome old
  | .deleteUnder .., count => let removed : Nat := count; decide (0 < removed)
  | .addMembers _ items, result => Except.isOk result && !items.isEmpty
  | .removeMembers .., count => let removed : Nat := count; decide (0 < removed)
  | .dropSet .., found => found

namespace Transaction

/-- What a write leads to, given whether its answer tells of a change. -/
structure Leads (t : Transaction) (changes : Bool) (t' : Transaction) : Prop where
  changed : t'.changed = (t.changed || changes)
  generation : t'.space.generation = t.space.generation
  kept : changes = false → t' = t

variable {t : Transaction}

theorem leads_self : t.Leads false t where
  changed := (Bool.or_false _).symm
  generation := rfl
  kept := fun _ => rfl

theorem leads_withValues (values : OrderedMap Bytes) : t.Leads true (t.withValues values) where
  changed := (Bool.or_true _).symm
  generation := rfl
  kept := fun h => absurd h (by simp)

theorem leads_withSets (sets : OrderedMap (ScoredSet Bytes)) : t.Leads true (t.withSets sets) where
  changed := (Bool.or_true _).symm
  generation := rfl
  kept := fun h => absurd h (by simp)

theorem set_ensures (key value : Bytes) :
    (t.set key value).Ensures fun (result, t') => t.Leads (Except.isOk result) t' := by
  unfold set
  split
  · exact Ensures.pure leads_self
  · refine Ensures.after ?_
    rintro (e | ⟨old, values⟩)
    · exact Ensures.pure leads_self
    · exact Ensures.pure (leads_withValues values)

theorem delete_ensures (key : Bytes) : (t.delete key).Ensures fun (old, t') => t.Leads old.isSome t' := by
  unfold delete
  refine Ensures.after ?_
  rintro ⟨_ | old, values⟩
  · exact Ensures.pure leads_self
  · exact Ensures.pure (leads_withValues values)

theorem deleteUnder_ensures (start : Bytes) :
    (t.deleteUnder start).Ensures fun (count, t') => t.Leads (decide (0 < count)) t' := by
  unfold deleteUnder
  refine Ensures.after ?_
  rintro ⟨count, values⟩
  refine Ensures.pure ?_
  dsimp only
  by_cases h : 0 < count
  · rw [if_pos h, decide_eq_true h]
    exact leads_withValues values
  · rw [if_neg h, decide_eq_false h]
    exact leads_self

/-- Whether the set is made or was there already, what comes after is the same. -/
theorem storeMembers_ensures (key : Bytes) (items : List (ScoredSet.Item Bytes)) (old : Option (ScoredSet Bytes))
    (z : ScoredSet Bytes) :
    (do
      match ← z.insertAll items with
      | .error e => return (.error e, t)
      | .ok (count, z) =>
        if old.isSome then
          let sets := (← t.space.sets.modify? key fun _ => z).getD t.space.sets
          return (.ok count, t.withSets sets)
        else
          match ← t.space.sets.insert key z with
          | .error e => return (.error e, t)
          | .ok (_, sets) => return (.ok count, t.withSets sets) :
      Edit (Except InputError Nat × Transaction)).Ensures fun (result, t') =>
        t.Leads (Except.isOk result && !false) t' := by
  refine Ensures.after ?_
  rintro (e | ⟨count, z'⟩)
  · exact Ensures.pure leads_self
  · dsimp only
    split
    · exact Ensures.after fun sets => Ensures.pure (leads_withSets _)
    · refine Ensures.after ?_
      rintro (e | ⟨old', sets⟩)
      · exact Ensures.pure leads_self
      · exact Ensures.pure (leads_withSets sets)

theorem addMembers_ensures (key : Bytes) (items : List (ScoredSet.Item Bytes)) :
    (t.addMembers key items).Ensures fun (result, t') => t.Leads (Except.isOk result && !items.isEmpty) t' := by
  unfold addMembers
  split
  · exact Ensures.pure leads_self
  · split
    · rename_i hempty
      refine Ensures.pure ?_
      rw [hempty]
      exact leads_self
    · rename_i hempty
      rw [eq_false_of_ne_true hempty]
      refine Ensures.after ?_
      rintro (_ | z)
      · exact Ensures.after (storeMembers_ensures key items none)
      · exact Ensures.after (storeMembers_ensures key items (some z))

theorem removeMembers_ensures (key : Bytes) (members : List Bytes) :
    (t.removeMembers key members).Ensures fun (count, t') => t.Leads (decide (0 < count)) t' := by
  unfold removeMembers
  refine Ensures.after ?_
  rintro (_ | z)
  · exact Ensures.pure leads_self
  · dsimp only
    -- only members that are there pass the test
    have htest : ∀ m, (do let score ← liftM (z.score? m); pure score.isSome : Edit Bool).Ensures fun b =>
        b = true → ∃ scored, z.get? m = .ok (some scored) := by
      intro m
      refine Ensures.bind (Ensures.lift fun score hscore => hscore) fun score hscore => Ensures.pure fun hsome => ?_
      unfold ScoredSet.score? at hscore
      cases hget : z.get? m with
      | error fault => rw [hget] at hscore; cases hscore
      | ok old =>
          rw [hget] at hscore
          obtain rfl := Except.ok.inj hscore
          rw [Option.isSome_map] at hsome
          obtain ⟨scored, rfl⟩ := Option.isSome_iff_exists.1 hsome
          exact ⟨scored, rfl⟩
    refine Ensures.bind (Ensures.filterM htest members) ?_
    rintro (_ | ⟨m, present⟩) hpresent
    · exact Ensures.pure leads_self
    · -- a batch of members that are there removes the first of them at least
      obtain ⟨scored, hscored⟩ := hpresent m List.mem_cons_self
      refine Ensures.bind (ScoredSet.eraseAll_ensures hscored) ?_
      rintro ⟨count, z'⟩ hcount
      have hleads : ∀ sets, t.Leads (decide (0 < count)) (t.withSets sets) := by
        intro sets
        rw [decide_eq_true hcount]
        exact leads_withSets sets
      refine Ensures.after fun result => ?_
      dsimp only
      split
      · exact Ensures.after fun erased => Ensures.pure (hleads _)
      · exact Ensures.pure (hleads _)

theorem dropSet_ensures (key : Bytes) : (t.dropSet key).Ensures fun (found, t') => t.Leads found t' := by
  unfold dropSet
  refine Ensures.after ?_
  rintro ⟨_ | old, sets⟩
  · exact Ensures.pure leads_self
  · exact Ensures.pure (leads_withSets sets)

/-- **A write changes something exactly if its answer says so.** -/
theorem perform_ensures (t : Transaction) (c : Command) :
    (t.perform c).Ensures fun (answer, t') => t.Leads (c.changes answer) t' := by
  cases c with
  | set key value => exact set_ensures key value
  | delete key => exact delete_ensures key
  | deleteUnder start => exact deleteUnder_ensures start
  | addMembers key items => exact addMembers_ensures key items
  | removeMembers key members => exact removeMembers_ensures key members
  | dropSet key => exact dropSet_ensures key

end Transaction

end OrderedStore
