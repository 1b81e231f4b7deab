import Mathlib.Tactic
import OrderedStore.Proofs.OrderedMap.Longest
import OrderedStore.Proofs.ScoredSet.Range
import OrderedStore.Proofs.Store.Script

/-!
# What a store has

The plain model of a store: one finite map from keys to values, and one from keys to finite maps of scored
members, none of them empty. A set that is not there is an empty one for every purpose, so a write to a set
computes the new members from the old ones and keeps the result unless it is empty. Here are the answers of the
model to every write and to every question.
-/

namespace OrderedStore

/-- The map without some keys. -/
def FiniteMap.without {α : Type} (m : FiniteMap α) (ks : Finset Bytes) : FiniteMap α where
  keys := m.keys \ ks
  value := fun key => if key ∈ ks then none else m.value key
  value_isSome := by
    intro key
    rw [Finset.mem_sdiff]
    by_cases hkey : key ∈ ks
    · simp [hkey]
    · rw [if_neg hkey, m.value_isSome, and_iff_left hkey]

/-- The values of a store, and its scored sets. No set is empty. -/
@[ext]
structure Contents where
  values : FiniteMap Bytes
  sets : FiniteMap (FiniteMap (Scored Bytes))
  filled : ∀ key z, sets.value key = some z → z.keys ≠ ∅

namespace Contents

/-- Nothing. -/
def empty : Contents := ⟨.empty, .empty, by simp [FiniteMap.empty]⟩

/-- The members of the set under a key, none if there is no such set. -/
def members (c : Contents) (key : Bytes) : FiniteMap (Scored Bytes) := (c.sets.value key).getD .empty

/-- The contents with other members in the set under a key; with none, there is no such set. -/
def withMembers (c : Contents) (key : Bytes) (z : FiniteMap (Scored Bytes)) : Contents where
  values := c.values
  sets := if z.keys = ∅ then c.sets.erase key else c.sets.insert key z
  filled := by
    intro key' z' hvalue
    by_cases hkey : key' = key
    · subst hkey
      split at hvalue
      · simp [FiniteMap.erase] at hvalue
      · rename_i hne
        simp only [FiniteMap.insert, Function.update_self, Option.some.injEq] at hvalue
        exact hvalue ▸ hne
    · refine c.filled key' z' ?_
      split at hvalue
      · simpa [FiniteMap.erase, Function.update_of_ne hkey] using hvalue
      · simpa [FiniteMap.insert, Function.update_of_ne hkey] using hvalue

theorem withMembers_value (c : Contents) (key : Bytes) (z : FiniteMap (Scored Bytes)) :
    (c.withMembers key z).sets.value = Function.update c.sets.value key (if z.keys = ∅ then none else some z) := by
  unfold withMembers
  split <;> rfl

/-- **Every set but the one that is written stays as it is.** -/
theorem members_withMembers (c : Contents) (key key' : Bytes) (z : FiniteMap (Scored Bytes)) :
    (c.withMembers key z).members key' = if key' = key then z else c.members key' := by
  unfold members
  rw [c.withMembers_value]
  by_cases hkey : key' = key
  · rw [if_pos hkey, hkey, Function.update_self]
    split
    · rename_i hempty
      refine FiniteMap.ext fun member => ?_
      -- a map without keys has no values
      have hnone : z.value member = none := z.value_of_not_mem (by rw [hempty]; exact Finset.notMem_empty member)
      rw [hnone]
      rfl
    · rfl
  · rw [if_neg hkey, Function.update_of_ne hkey]

theorem members_of_value (c : Contents) {key : Bytes} {z : FiniteMap (Scored Bytes)} (h : c.sets.value key = some z) :
    c.members key = z := by
  rw [members, h]
  rfl

theorem members_of_absent (c : Contents) {key : Bytes} (h : c.sets.value key = none) : c.members key = .empty := by
  rw [members, h]
  rfl

/-- **Members that stay the same change nothing**, also where there is no set. -/
theorem withMembers_members (c : Contents) (key : Bytes) : c.withMembers key (c.members key) = c := by
  refine Contents.ext rfl (FiniteMap.ext fun key' => congrFun ?_ key')
  rw [c.withMembers_value]
  cases hvalue : c.sets.value key with
  | none =>
      have hempty : (FiniteMap.empty : FiniteMap (Scored Bytes)).keys = ∅ := rfl
      rw [c.members_of_absent hvalue, if_pos hempty, ← hvalue, Function.update_eq_self]
  | some z =>
      rw [c.members_of_value hvalue, if_neg (c.filled key z hvalue), ← hvalue, Function.update_eq_self]

/-! ## Writes -/

/-- What the model answers to a write, and what becomes of it. Keys that the configuration refuses, scores that
are no numbers and members that are too long are refused, a batch as a whole. One more key than there are slot
numbers is the one fault. -/
def answer (config : Config) (c : Contents) : (cmd : Command) → Except Fault (cmd.Answer × Contents)
  | .set key value =>
    match KeyRules.check config key with
    | .error e => .ok (.error e, c)
    | .ok () => do
      let (old, values) ← c.values.store key value
      return (.ok old, { c with values })
  | .delete key => .ok (c.values.value key, { c with values := c.values.erase key })
  | .deleteUnder start => .ok ((c.values.under start).card, { c with values := c.values.eraseUnder start })
  | .addMembers key items =>
    match KeyRules.check config key with
    | .error e => .ok (.error e, c)
    | .ok () =>
      if items.isEmpty then .ok (.ok 0, c)
      else
        match items.findSome? fun (score, member, _) => FiniteMap.refusal? config.keyLimit score member with
        | some e => .ok (.error e, c)
        | none => do
          let (count, z) ← (c.members key).putAll items
          if key ∉ c.sets.keys ∧ Pool.slotLimit ≤ c.sets.card then .error .poolExhausted
          else return (.ok count, c.withMembers key z)
  | .removeMembers key gone =>
    let z := c.members key
    .ok ((z.keys ∩ gone.toFinset).card, c.withMembers key (z.without gone.toFinset))
  | .dropSet key => .ok (decide (key ∈ c.sets.keys), c.withMembers key .empty)

/-- What becomes of a value that is to be stored. -/
theorem set_cases {config : Config} {c c' : Contents} {key value : Bytes} {result : Except InputError (Option Bytes)}
    (h : c.answer config (.set key value) = .ok (result, c')) :
    (∃ reason, result = .error reason ∧ c' = c) ∨
      KeyRules.check config key = .ok () ∧ result = .ok (c.values.value key) ∧
        c' = { c with values := c.values.insert key value } := by
  rw [answer] at h
  split at h
  · obtain ⟨hresult, hsame⟩ := Prod.mk.inj (Except.ok.inj h)
    exact Or.inl ⟨_, hresult.symm, hsame.symm⟩
  · rename_i hcheck
    unfold FiniteMap.store at h
    split at h
    · cases h
    · obtain ⟨hresult, hstored⟩ := Prod.mk.inj (Except.ok.inj h)
      exact Or.inr ⟨hcheck, hresult.symm, hstored.symm⟩

/-- What becomes of a batch that is to be added. It is refused for its key or for its first bad item. -/
theorem addMembers_cases {config : Config} {c c' : Contents} {key : Bytes} {items : List (ScoredSet.Item Bytes)}
    {result : Except InputError Nat} (h : c.answer config (.addMembers key items) = .ok (result, c')) :
    c' = c ∧ (∀ reason, result = .error reason → KeyRules.check config key = .error reason ∨
        items.findSome? (fun (score, member, _) => FiniteMap.refusal? config.keyLimit score member) = some reason) ∨
      KeyRules.check config key = .ok () ∧
        items.findSome? (fun (score, member, _) => FiniteMap.refusal? config.keyLimit score member) = none ∧
        ∃ count z, (c.members key).putAll items = .ok (count, z) ∧ result = .ok count ∧ c' = c.withMembers key z := by
  rw [answer] at h
  split at h
  · rename_i reason hcheck
    obtain ⟨rfl, rfl⟩ := Prod.mk.inj (Except.ok.inj h)
    exact Or.inl ⟨rfl, fun reason' heq => Or.inl (Except.error.inj heq ▸ hcheck)⟩
  · rename_i hcheck
    split at h
    · obtain ⟨rfl, rfl⟩ := Prod.mk.inj (Except.ok.inj h)
      exact Or.inl ⟨rfl, fun reason heq => nomatch heq⟩
    · split at h
      · rename_i reason hitem
        obtain ⟨rfl, rfl⟩ := Prod.mk.inj (Except.ok.inj h)
        exact Or.inl ⟨rfl, fun reason' heq => Or.inr (Except.error.inj heq ▸ hitem)⟩
      · rename_i hok
        cases hput : (c.members key).putAll items with
        | error fault =>
            rw [hput] at h
            cases h
        | ok counted =>
            rw [hput] at h
            change (if _ then Except.error _ else Except.ok _) = _ at h
            split at h
            · cases h
            · obtain ⟨hresult, hstored⟩ := Prod.mk.inj (Except.ok.inj h)
              exact Or.inr ⟨hcheck, hok, counted.1, counted.2, rfl, hresult.symm, hstored.symm⟩

end Contents

/-! ## Questions -/

/-- A question to a keyspace. -/
inductive Lookup
  | size
  | get (key : Bytes)
  | contains (key : Bytes)
  | longest (key : Bytes)
  | setCount
  | card (key : Bytes)
  | score (key member : Bytes)
  | rangeUnder (key start : Bytes) (opts : RangeQuery)
  | rangeBetween (key : Bytes) (min max : ScoreBound) (opts : RangeQuery)

/-- The answer to a question. -/
def Lookup.Answer : Lookup → Type
  | size => Nat
  | get _ => Option Bytes
  | contains _ => Bool
  | longest _ => Option (Bytes × Bytes)
  | setCount => Nat
  | card _ => Nat
  | score .. => Option Binary64
  | rangeUnder .. => List (RangeRow Bytes)
  | rangeBetween .. => List (RangeRow Bytes)

/-- What a keyspace answers. The links of a leaf are no part of the answer. -/
def Keyspace.look (k : Keyspace) : (q : Lookup) → Except Fault q.Answer
  | .size => .ok k.size
  | .get key => k.get? key
  | .contains key => .ok (k.contains key)
  | .longest key => Option.map Leaf.item <$> k.longest? key
  | .setCount => .ok k.setCount
  | .card key => k.card key
  | .score key member => k.score? key member
  | .rangeUnder key start opts => k.rangeUnder key start opts
  | .rangeBetween key min max opts => k.rangeBetween key min max opts

namespace Contents

/-- What the model answers. -/
def look (c : Contents) : (q : Lookup) → q.Answer
  | .size => c.values.card
  | .get key => c.values.value key
  | .contains key => decide (key ∈ c.values.keys)
  | .longest key => c.values.longest key
  | .setCount => c.sets.card
  | .card key => (c.members key).card
  | .score key member => ((c.members key).value member).map Scored.score
  | .rangeUnder key start opts => opts.select ((c.members key).byKey.filter fun row => start <+: row.1)
  | .rangeBetween key min max opts => opts.select ((c.members key).byScore.filter (ScoreBound.admits min max))

end Contents

/-! ## Operations -/

variable {ε α : Type}

/-- Follow a script on the model. -/
def Script.follow (config : Config) : Script Lookup.Answer ε α → Contents → Except Fault (Except ε α × Contents)
  | .done answer, c => .ok (.ok answer, c)
  | .fail reason, c => .ok (.error reason, c)
  | .ask q next, c => (next (c.look q)).follow config c
  | .write cmd next, c => do
    let (answer, c) ← c.answer config cmd
    (next answer).follow config c

/-- Follow a script to its end. One that gives up leaves the model as it was. -/
def Script.attempt (config : Config) (script : Script Lookup.Answer ε α) (c : Contents) :
    Except Fault (Except ε α × Contents) := do
  let (result, c') ← script.follow config c
  return (result, if Except.isOk result then c' else c)

/-- What the model makes of an operation. -/
def Contents.operate (config : Config) (c : Contents) :
    Operation Lookup.Answer ε α → Except Fault (Outcome ε α × Contents)
  | .write cmd => do
    let (answer, c) ← c.answer config cmd
    return (.wrote cmd answer, c)
  | .transaction script => do
    let (result, c) ← script.attempt config c
    return (.ended result, c)

end OrderedStore
