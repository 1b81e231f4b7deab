import Mathlib.Tactic
import OrderedStore.Proofs.Store.Keyspace

/-!
# Writes to a keyspace and to its contents

Each of the six writes answers what the contents answer and leads to a keyspace that stands for what becomes of
them. A set is looked up, changed as a value and kept under its key again, or dropped if no member is left, and
so it is with the members: to write members that are the same changes nothing.
-/

namespace OrderedStore

open Edit

namespace FiniteMap

section

variable {α : Type} {s : FiniteMap α} {key : Bytes}

theorem erase_absent (h : s.value key = none) : s.erase key = s := by
  refine FiniteMap.ext fun key' => ?_
  unfold erase
  dsimp only
  rw [← h, Function.update_eq_self]

theorem eraseUnder_absent {start : Bytes} (h : (s.under start).card = 0) : s.eraseUnder start = s := by
  refine FiniteMap.ext fun key => ?_
  unfold eraseUnder
  dsimp only
  by_cases hkey : start <+: key
  · have hout : key ∉ s.under start := by
      rw [Finset.card_eq_zero.1 h]
      exact Finset.notMem_empty key
    rw [if_pos hkey, s.value_of_not_mem fun hmem => hout (Finset.mem_filter.2 ⟨hmem, hkey⟩)]
  · rw [if_neg hkey]

theorem without_absent {ks : Finset Bytes} (h : s.keys ∩ ks = ∅) : s.without ks = s := by
  refine FiniteMap.ext fun key => ?_
  unfold without
  dsimp only
  by_cases hkey : key ∈ ks
  · have hout : key ∉ s.keys ∩ ks := by
      rw [h]
      exact Finset.notMem_empty key
    rw [if_pos hkey, s.value_of_not_mem fun hmem => hout (Finset.mem_inter.2 ⟨hmem, hkey⟩)]
  · rw [if_neg hkey]

/-- Which of the keys to leave out are not there makes no difference. -/
theorem without_filter (s : FiniteMap α) (gone : List Bytes) :
    s.without (gone.filter fun member => (s.value member).isSome).toFinset = s.without gone.toFinset := by
  refine FiniteMap.ext fun key => ?_
  unfold without
  simp only [List.mem_toFinset, List.mem_filter]
  cases hvalue : s.value key <;> simp

theorem inter_filter (s : FiniteMap α) (gone : List Bytes) :
    s.keys ∩ (gone.filter fun member => (s.value member).isSome).toFinset = s.keys ∩ gone.toFinset := by
  ext key
  simp only [Finset.mem_inter, List.mem_toFinset, List.mem_filter, s.value_isSome]
  tauto

end

variable {V : Type}

/-- The rest of a batch goes into the map that has its first member. -/
theorem putAll_cons_ok {s s' : FiniteMap (Scored V)} {score : Binary64} {member : Bytes} {payload : V}
    {items : List (ScoredSet.Item V)} {count : Nat}
    (h : s.putAll ((score, member, payload) :: items) = .ok (count, s')) :
    ∃ count', (s.insert member ⟨score, payload⟩).putAll items = .ok (count', s') := by
  rw [putAll, put] at h
  by_cases hfull : member ∉ s.keys ∧ Pool.slotLimit ≤ s.card
  · rw [if_pos hfull] at h
    cases h
  · rw [if_neg hfull] at h
    change ((s.insert member ⟨score, payload⟩).putAll items >>= _) = _ at h
    cases hrest : (s.insert member ⟨score, payload⟩).putAll items with
    | error fault =>
        rw [hrest] at h
        cases h
    | ok result =>
        rw [hrest] at h
        obtain ⟨-, rfl⟩ := Prod.mk.inj (Except.ok.inj h)
        exact ⟨result.1, rfl⟩

/-- A batch that is not empty leaves some member. -/
theorem putAll_ne_empty {s s' : FiniteMap (Scored V)} {items : List (ScoredSet.Item V)} {count : Nat}
    (h : s.putAll items = .ok (count, s')) (hne : items ≠ [] ∨ s.keys ≠ ∅) : s'.keys ≠ ∅ := by
  induction items generalizing s count with
  | nil =>
      obtain ⟨-, rfl⟩ := Prod.mk.inj (Except.ok.inj h)
      exact hne.resolve_left fun hnil => hnil rfl
  | cons item items ih =>
      obtain ⟨score, member, payload⟩ := item
      obtain ⟨count', hrest⟩ := putAll_cons_ok h
      exact ih hrest (Or.inr (Finset.insert_ne_empty member s.keys))

/-- Taking members out one after another takes out those that are there, each once. -/
theorem eraseAll_eq (s : FiniteMap (Scored V)) (gone : List Bytes) :
    s.eraseAll gone = ((s.keys ∩ gone.toFinset).card, s.without gone.toFinset) := by
  induction gone generalizing s with
  | nil =>
      have hsame : s.without ∅ = s := FiniteMap.ext fun key => by simp [without]
      rw [eraseAll, List.toFinset_nil, Finset.inter_empty, hsame]
      rfl
  | cons member gone ih =>
      have hrest : (s.erase member).without gone.toFinset = s.without (Insert.insert member gone.toFinset) := by
        refine FiniteMap.ext fun key => ?_
        by_cases hkey : key = member
        · simp [without, erase, hkey]
        · simp [without, erase, hkey]
      have hcard : ((s.erase member).keys ∩ gone.toFinset).card + (if member ∈ s.keys then 1 else 0) =
          (s.keys ∩ Insert.insert member gone.toFinset).card := by
        have hkeys : (s.erase member).keys ∩ gone.toFinset =
            (s.keys ∩ Insert.insert member gone.toFinset).erase member := by
          ext key
          simp only [erase, Finset.mem_inter, Finset.mem_erase, Finset.mem_insert]
          tauto
        rw [hkeys]
        by_cases hmem : member ∈ s.keys
        · rw [if_pos hmem, Finset.card_erase_add_one (by simp [hmem])]
        · rw [if_neg hmem, Finset.erase_eq_of_notMem (by simp [hmem]), Nat.add_zero]
      rw [eraseAll, ih, List.toFinset_cons]
      dsimp only
      rw [hcard, hrest]

end FiniteMap

namespace ScoredSet.Represents

variable {V : Type} {limit : Nat} {z : ScoredSet V} {s : FiniteMap (Scored V)}

theorem empty_yields (limit : Nat) : (ScoredSet.empty V limit).Yields fun z => Represents limit z .empty := by
  refine (ScoredSet.empty_yields limit).mono ?_
  intro z h
  exact ⟨h.1, [], [], h.2, FiniteMap.lists_empty⟩

/-- A batch is looked at as a whole before anything is written. -/
theorem insertAll_eq (h : Represents limit z s) (items : List (Item V)) :
    z.insertAll items =
      match items.findSome? fun (score, member, _) => FiniteMap.refusal? limit score member with
      | some e => pure (.error e)
      | none => do return .ok (← z.putAll items) := by
  have hcheck := z.checkAll_eq items
  rw [h.1] at hcheck
  unfold ScoredSet.insertAll
  rw [hcheck]
  cases items.findSome? fun (score, member, _) => FiniteMap.refusal? limit score member <;> rfl

end ScoredSet.Represents

theorem KeyRules.length_le_of_check {config : Config} {key : Bytes} (h : check config key = .ok ()) :
    key.length ≤ config.keyLimit := by
  unfold check at h
  by_contra hlong
  rw [if_pos (Nat.lt_of_not_le hlong)] at h
  cases h

/-- A key that the rules accept is short enough for the map. -/
theorem OrderedMap.Represents.insert_eq {V : Type} {config : Config} {m : OrderedMap V} {s : FiniteMap V} {key : Bytes}
    (h : OrderedMap.Represents config.keyLimit m s) (hcheck : KeyRules.check config key = .ok ()) (value : V) :
    m.insert key value = do return .ok (← m.put key value) := by
  have hlength : m.checkLength key = .ok () := by
    unfold checkLength
    rw [h.1]
    exact if_neg (Nat.not_lt_of_le (KeyRules.length_le_of_check hcheck))
  unfold OrderedMap.insert
  rw [hlength]

namespace Transaction

variable {config : Config} {t : Transaction} {c : Contents}

/-- The writer's state in a transaction has these contents. -/
def Represents (config : Config) (t : Transaction) (c : Contents) : Prop := t.space.Represents config c

theorem Represents.withValues {values : OrderedMap Bytes} {s : FiniteMap Bytes} (h : t.Represents config c)
    (hs : OrderedMap.Represents config.keyLimit values s) :
    (t.withValues values).Represents config { c with values := s } := ⟨h.settings, hs, h.sets⟩

/-- The set under a key is another one, or none if that has no members. -/
theorem Represents.withSets {sets : OrderedMap (ScoredSet Bytes)} {zs zs' : FiniteMap (ScoredSet Bytes)}
    {found : Option (ScoredSet Bytes)} {key : Bytes} {s : FiniteMap (Scored Bytes)} (h : t.Represents config c)
    (hmatch : Keyspace.SetsMatch config.keyLimit zs c.sets) (hsets : OrderedMap.Represents config.keyLimit sets zs')
    (hvalue : zs'.value = Function.update zs.value key found)
    (hfound : Option.Rel (ScoredSet.Represents config.keyLimit) found (if s.keys = ∅ then none else some s)) :
    (t.withSets sets).Represents config (c.withMembers key s) :=
  ⟨h.settings, h.values, zs', hsets, hmatch.withMembers key hvalue hfound⟩

theorem Represents.set_meets (h : t.Represents config c) (key value : Bytes) :
    Meets (R := Except InputError (Option Bytes)) (Represents config) (t.set key value)
      (c.answer config (.set key value)) := by
  rw [Contents.answer]
  unfold Transaction.set
  rw [h.settings]
  cases hcheck : KeyRules.check config key with
  | error e => exact Yields.pure ⟨rfl, h⟩
  | ok accepted =>
      dsimp only
      rw [h.values.insert_eq hcheck]
      simp only [bind_assoc, pure_bind]
      exact (h.values.put_meets key value).bind fun old values s hs => Yields.pure ⟨rfl, h.withValues hs⟩

theorem Represents.delete_meets (h : t.Represents config c) (key : Bytes) :
    Meets (R := Option Bytes) (Represents config) (t.delete key) (c.answer config (.delete key)) := by
  rw [Contents.answer]
  unfold Transaction.delete
  refine Yields.bind (h.values.erase_yields key) fun result hresult => ?_
  obtain ⟨old, values⟩ := result
  obtain ⟨rfl, hvalues⟩ := hresult
  refine Yields.pure ⟨rfl, ?_⟩
  cases hvalue : c.values.value key with
  | none =>
      rw [FiniteMap.erase_absent hvalue]
      exact h
  | some old => exact h.withValues hvalues

theorem Represents.deleteUnder_meets (h : t.Represents config c) (start : Bytes) :
    Meets (R := Nat) (Represents config) (t.deleteUnder start) (c.answer config (.deleteUnder start)) := by
  rw [Contents.answer]
  unfold Transaction.deleteUnder
  refine Yields.bind (h.values.eraseUnder_yields start) fun result hresult => ?_
  obtain ⟨count, values⟩ := result
  obtain ⟨rfl, hvalues⟩ := hresult
  refine Yields.pure ⟨rfl, ?_⟩
  by_cases hcount : (c.values.under start).card > 0
  · rw [if_pos hcount]
    exact h.withValues hvalues
  · rw [if_neg hcount, FiniteMap.eraseUnder_absent (Nat.eq_zero_of_not_pos hcount)]
    exact h

theorem Represents.dropSet_meets (h : t.Represents config c) (key : Bytes) :
    Meets (R := Bool) (Represents config) (t.dropSet key) (c.answer config (.dropSet key)) := by
  rw [Contents.answer]
  unfold Transaction.dropSet
  obtain ⟨zs, hzs, hmatch⟩ := h.sets
  refine Yields.bind (hzs.erase_yields key) fun result hresult => ?_
  obtain ⟨old, sets⟩ := result
  obtain ⟨rfl, hsets⟩ := hresult
  have hfound : (zs.value key).isSome = decide (key ∈ c.sets.keys) := by
    rw [hmatch.isSome_eq, c.sets.isSome_eq_decide]
  refine Yields.pure ⟨hfound, ?_⟩
  rw [hfound]
  by_cases hkey : key ∈ c.sets.keys
  · rw [if_pos (decide_eq_true hkey)]
    exact h.withSets hmatch hsets rfl Option.Rel.none
  · have habsent : c.sets.value key = none := by
      rwa [← Option.not_isSome_iff_eq_none, c.sets.value_isSome]
    rw [if_neg fun hsome => hkey (of_decide_eq_true hsome), ← c.members_of_absent habsent, c.withMembers_members]
    exact h

/-- A set with members is kept under its key, where there was one before or where there was none. -/
theorem Represents.keepSet_meets (h : t.Represents config c) {key : Bytes} (hcheck : KeyRules.check config key = .ok ())
    {zs : FiniteMap (ScoredSet Bytes)} (hzs : OrderedMap.Represents config.keyLimit t.space.sets zs)
    (hmatch : Keyspace.SetsMatch config.keyLimit zs c.sets) {z : ScoredSet Bytes} {s : FiniteMap (Scored Bytes)}
    (hz : ScoredSet.Represents config.keyLimit z s) (hfilled : s.keys ≠ ∅) (count : Nat) :
    Meets (Represents config)
      (if (zs.value key).isSome then do
          let sets := (← t.space.sets.modify? key fun _ => z).getD t.space.sets
          return (.ok count, t.withSets sets)
        else do
          match ← t.space.sets.insert key z with
          | .error e => return (.error e, t)
          | .ok (_, sets) => return (.ok count, t.withSets sets) :
        Edit (Except InputError Nat × Transaction))
      (if key ∉ c.sets.keys ∧ Pool.slotLimit ≤ c.sets.card then .error .poolExhausted
        else .ok (.ok count, c.withMembers key s)) := by
  have hfound : Option.Rel (ScoredSet.Represents config.keyLimit) (some z) (if s.keys = ∅ then none else some s) := by
    rw [if_neg hfilled]
    exact Option.Rel.some hz
  rw [hmatch.isSome_eq, c.sets.isSome_eq_decide]
  by_cases hkey : key ∈ c.sets.keys
  · rw [if_pos (decide_eq_true hkey), if_neg fun hfull => hfull.1 hkey]
    refine Yields.bind (hzs.modify?_yields key fun _ => z) fun result hresult => Yields.pure ⟨rfl, ?_⟩
    refine h.withSets hmatch hresult.2 ?_ hfound
    have hthere : (zs.value key).isSome = true := by
      rw [hmatch.isSome_eq, c.sets.isSome_eq_decide, decide_eq_true hkey]
    obtain ⟨old, hold⟩ := Option.isSome_iff_exists.1 hthere
    unfold FiniteMap.modify
    dsimp only
    rw [hold, Option.map_some]
  · rw [if_neg fun hsome => hkey (of_decide_eq_true hsome), hzs.insert_eq hcheck, ← hmatch.keys_eq, ← hmatch.card_eq]
    simp only [bind_assoc, pure_bind]
    have hput := hzs.put_meets key z
    unfold FiniteMap.store at hput
    by_cases hfull : key ∉ zs.keys ∧ Pool.slotLimit ≤ zs.card
    · rw [if_pos hfull] at hput ⊢
      exact Faults.bind hput
    · rw [if_neg hfull] at hput ⊢
      refine Yields.bind hput fun result hresult => Yields.pure ⟨rfl, ?_⟩
      exact h.withSets hmatch hresult.2 rfl hfound

/-- Members added to a set, which is then kept. -/
theorem Represents.storeMembers_meets (h : t.Represents config c) {key : Bytes} {items : List (ScoredSet.Item Bytes)}
    (hcheck : KeyRules.check config key = .ok ()) (hitems : items ≠ []) {zs : FiniteMap (ScoredSet Bytes)}
    (hzs : OrderedMap.Represents config.keyLimit t.space.sets zs)
    (hmatch : Keyspace.SetsMatch config.keyLimit zs c.sets) {z : ScoredSet Bytes}
    (hz : ScoredSet.Represents config.keyLimit z (c.members key)) :
    Meets (Represents config)
      (do
        match ← z.insertAll items with
        | .error e => return (.error e, t)
        | .ok (count, z) =>
          if (zs.value key).isSome then
            let sets := (← t.space.sets.modify? key fun _ => z).getD t.space.sets
            return (.ok count, t.withSets sets)
          else
            match ← t.space.sets.insert key z with
            | .error e => return (.error e, t)
            | .ok (_, sets) => return (.ok count, t.withSets sets) :
        Edit (Except InputError Nat × Transaction))
      (match items.findSome? fun (score, member, _) => FiniteMap.refusal? config.keyLimit score member with
        | some e => .ok (.error e, c)
        | none => do
          let (count, z) ← (c.members key).putAll items
          if key ∉ c.sets.keys ∧ Pool.slotLimit ≤ c.sets.card then .error .poolExhausted
          else return (.ok count, c.withMembers key z)) := by
  rw [hz.insertAll_eq]
  cases hrefusal : items.findSome? fun (score, member, _) => FiniteMap.refusal? config.keyLimit score member with
  | some e => exact Yields.pure ⟨rfl, h⟩
  | none =>
      simp only [bind_assoc, pure_bind]
      have hmeets := hz.putAll_meets hrefusal
      cases hput : (c.members key).putAll items with
      | error fault =>
          rw [hput] at hmeets
          exact Faults.bind hmeets
      | ok result =>
          obtain ⟨count, s⟩ := result
          rw [hput] at hmeets
          refine Meets.after hmeets fun result hresult => ?_
          obtain ⟨count', z'⟩ := result
          obtain ⟨rfl, hz'⟩ := hresult
          exact h.keepSet_meets hcheck hzs hmatch hz' (FiniteMap.putAll_ne_empty hput (Or.inl hitems)) count'

/-- Members added to a set that is there or is about to be made. -/
theorem Represents.addMembers_meets (h : t.Represents config c) (key : Bytes) (items : List (ScoredSet.Item Bytes)) :
    Meets (R := Except InputError Nat) (Represents config) (t.addMembers key items)
      (c.answer config (.addMembers key items)) := by
  rw [Contents.answer]
  unfold Transaction.addMembers
  rw [h.settings]
  cases hcheck : KeyRules.check config key with
  | error e => exact Yields.pure ⟨rfl, h⟩
  | ok accepted =>
      dsimp only
      by_cases hitems : items.isEmpty
      · rw [if_pos hitems, if_pos hitems]
        exact Yields.pure ⟨rfl, h⟩
      rw [if_neg hitems, if_neg hitems]
      have hne : items ≠ [] := fun hnil => hitems (List.isEmpty_iff.2 hnil)
      obtain ⟨zs, hzs, hmatch⟩ := h.sets
      have hfound : t.space.set? key = .ok (zs.value key) := hzs.agrees.get? key
      have hstore : ∀ z, ScoredSet.Represents config.keyLimit z (c.members key) → _ :=
        fun z hz => h.storeMembers_meets hcheck hne hzs hmatch hz
      have hrel := hmatch key
      rw [hfound, lift_ok_bind]
      generalize zs.value key = found at hrel hstore ⊢
      generalize hvalue : c.sets.value key = met at hrel
      cases hrel with
      | none =>
          rw [c.members_of_absent hvalue] at hstore ⊢
          exact Meets.after (ScoredSet.Represents.empty_yields config.keyLimit) hstore
      | some hz => exact hstore _ (c.members_of_value hvalue ▸ hz)

theorem filterM_pure {α : Type} (p : α → Bool) (l : List α) :
    l.filterM (fun a => (pure (p a) : Edit Bool)) = pure (l.filter p) := by
  -- the filter collects what passes, last first
  have haux : ∀ l acc : List α,
      l.filterAuxM (fun a => (pure (p a) : Edit Bool)) acc = pure ((l.filter p).reverse ++ acc) := by
    intro l
    induction l with
    | nil => exact fun acc => rfl
    | cons a l ih =>
        intro acc
        rw [List.filterAuxM, pure_bind, ih]
        cases hp : p a <;> simp [hp]
  unfold List.filterM
  rw [haux, pure_bind, List.append_nil, List.reverse_reverse]

/-- The members of a batch that are there. -/
theorem present_eq {limit : Nat} {z : ScoredSet Bytes} {s : FiniteMap (Scored Bytes)}
    (hz : ScoredSet.Represents limit z s) (gone : List Bytes) :
    (gone.filterM fun member => do pure (← z.score? member).isSome : Edit (List Bytes)) =
      pure (gone.filter fun member => (s.value member).isSome) := by
  have htest : (fun member => do pure (← z.score? member).isSome : Bytes → Edit Bool) =
      fun member => pure (s.value member).isSome := by
    funext member
    rw [hz.agrees.score?, lift_ok_bind, Option.isSome_map]
  rw [htest, filterM_pure]

theorem Represents.removeMembers_meets (h : t.Represents config c) (key : Bytes) (gone : List Bytes) :
    Meets (R := Nat) (Represents config) (t.removeMembers key gone) (c.answer config (.removeMembers key gone)) := by
  rw [Contents.answer]
  unfold Transaction.removeMembers
  obtain ⟨zs, hzs, hmatch⟩ := h.sets
  have hfound : t.space.set? key = .ok (zs.value key) := hzs.agrees.get? key
  have hrel := hmatch key
  rw [hfound, lift_ok_bind]
  generalize hset : zs.value key = found at hrel
  generalize hvalue : c.sets.value key = met at hrel
  cases hrel with
  | none =>
      have hempty := c.members_of_absent hvalue
      have hcount : (c.members key).keys ∩ gone.toFinset = ∅ := by
        rw [hempty]
        exact Finset.empty_inter _
      dsimp only
      rw [hcount, FiniteMap.without_absent hcount, c.withMembers_members]
      exact Yields.pure ⟨rfl, h⟩
  | @some z s hz =>
      rw [c.members_of_value hvalue]
      dsimp only
      rw [present_eq hz, pure_bind, ← s.inter_filter gone, ← s.without_filter gone]
      generalize gone.filter (fun member => (s.value member).isSome) = present
      by_cases hpresent : present.isEmpty
      · have hcount : s.keys ∩ present.toFinset = ∅ := by
          rw [List.isEmpty_iff.1 hpresent]
          exact Finset.inter_empty _
        have hsame : c.withMembers key s = c := by
          rw [← c.members_of_value hvalue, c.withMembers_members]
        rw [if_pos hpresent, hcount, FiniteMap.without_absent hcount, hsame]
        exact Yields.pure ⟨rfl, h⟩
      · rw [if_neg hpresent]
        have herase := hz.eraseAll_yields present
        rw [s.eraseAll_eq] at herase
        refine Yields.bind herase fun result hresult => ?_
        obtain ⟨count, z'⟩ := result
        obtain ⟨rfl, hz'⟩ := hresult
        refine Yields.bind (hzs.modify?_yields key fun _ => z') fun modified hmodified => ?_
        have hsets := hmodified.2
        generalize modified.getD t.space.sets = sets at hsets
        have hchanged : (zs.modify key fun _ => z').value = Function.update zs.value key (some z') := by
          unfold FiniteMap.modify
          dsimp only
          rw [hset, Option.map_some]
        by_cases hleft : z'.isEmpty
        · have hdropped := hz'.isEmpty_iff.1 hleft
          have hnone : Option.Rel (ScoredSet.Represents config.keyLimit) none
              (if (s.without present.toFinset).keys = ∅ then none else some (s.without present.toFinset)) := by
            rw [if_pos hdropped]
            exact Option.Rel.none
          rw [if_pos hleft]
          refine Yields.bind (hsets.erase_yields key) fun erased herased => Yields.pure ⟨rfl, ?_⟩
          refine h.withSets hmatch herased.2 ?_ hnone
          unfold FiniteMap.erase
          dsimp only
          rw [hchanged, Function.update_idem]
        · have hfilled := (not_congr hz'.isEmpty_iff).1 hleft
          rw [if_neg hleft]
          refine Yields.pure ⟨rfl, h.withSets hmatch hsets hchanged ?_⟩
          rw [if_neg hfilled]
          exact Option.Rel.some hz'

/-- **One write** answers what the contents answer, and leads to what becomes of them. -/
theorem Represents.perform_meets (h : t.Represents config c) (cmd : Command) :
    Meets (Represents config) (t.perform cmd) (c.answer config cmd) := by
  cases cmd with
  | set key value => exact h.set_meets key value
  | delete key => exact h.delete_meets key
  | deleteUnder start => exact h.deleteUnder_meets start
  | addMembers key items => exact h.addMembers_meets key items
  | removeMembers key gone => exact h.removeMembers_meets key gone
  | dropSet key => exact h.dropSet_meets key

end Transaction

end OrderedStore
