import Mathlib.Tactic
import OrderedStore.Proofs.Store.Contents

/-!
# A keyspace and the contents it stands for

A keyspace keeps its sets as values of a map, so what it stands for is found in two steps: the map of sets
represents a finite map of scored sets, and each of these represents a finite map of members. Then every question
is answered by the contents.
-/

namespace OrderedStore

namespace ScoredSet.Represents

variable {V : Type} {limit : Nat} {z : ScoredSet V} {s : FiniteMap (Scored V)}

theorem isEmpty_iff (h : Represents limit z s) : z.isEmpty = true ↔ s.keys = ∅ := by
  obtain ⟨-, es, tiers, hz, hs⟩ := h
  exact hz.members.isEmpty_iff.trans hs.isEmpty_iff.symm

theorem rangeUnder_eq (h : Represents limit z s) (start : Bytes) (opts : RangeQuery) :
    z.rangeUnder start opts = .ok (opts.select (s.byKey.filter fun row => start <+: row.1)) := by
  obtain ⟨-, es, tiers, hz, hs⟩ := h
  exact hz.rangeUnder_eq hs start opts

theorem rangeBetween_eq (h : Represents limit z s) (min max : ScoreBound) (opts : RangeQuery) :
    z.rangeBetween min max opts = .ok (opts.select (s.byScore.filter (ScoreBound.admits min max))) := by
  obtain ⟨-, es, tiers, hz, hs⟩ := h
  exact hz.rangeBetween_eq hs min max opts

end ScoredSet.Represents

namespace FiniteMap

variable {V : Type}

theorem isSome_eq_decide (s : FiniteMap V) (key : Bytes) : (s.value key).isSome = decide (key ∈ s.keys) := by
  rw [Bool.eq_iff_iff, s.value_isSome, decide_eq_true_eq]

theorem byScore_empty : (empty : FiniteMap (Scored V)).byScore = [] := by
  unfold byScore
  rw [byKey_empty, List.mergeSort_nil]

end FiniteMap

namespace Keyspace

/-- Scored sets that represent finite maps of members, key by key. -/
def SetsMatch (limit : Nat) (zs : FiniteMap (ScoredSet Bytes)) (sets : FiniteMap (FiniteMap (Scored Bytes))) : Prop :=
  ∀ key, Option.Rel (ScoredSet.Represents limit) (zs.value key) (sets.value key)

/-- The keyspace is configured like this and has these contents. -/
structure Represents (config : Config) (k : Keyspace) (c : Contents) : Prop where
  settings : k.config = config
  values : OrderedMap.Represents config.keyLimit k.values c.values
  sets : ∃ zs, OrderedMap.Represents config.keyLimit k.sets zs ∧ SetsMatch config.keyLimit zs c.sets

variable {limit : Nat} {zs : FiniteMap (ScoredSet Bytes)} {sets : FiniteMap (FiniteMap (Scored Bytes))}
  {z : ScoredSet Bytes} {s : FiniteMap (Scored Bytes)} {key : Bytes}

theorem SetsMatch.isSome_eq (h : SetsMatch limit zs sets) (key : Bytes) :
    (zs.value key).isSome = (sets.value key).isSome := by
  have hkey := h key
  generalize zs.value key = a at hkey ⊢
  generalize sets.value key = b at hkey ⊢
  cases hkey <;> rfl

theorem SetsMatch.keys_eq (h : SetsMatch limit zs sets) : zs.keys = sets.keys := by
  ext key
  rw [← zs.value_isSome, ← sets.value_isSome, h.isSome_eq]

theorem SetsMatch.card_eq (h : SetsMatch limit zs sets) : zs.card = sets.card := congrArg Finset.card h.keys_eq

/-- Another set under a key, or none, beside other members, or none. -/
theorem SetsMatch.withMembers {c : Contents} {zs' : FiniteMap (ScoredSet Bytes)} {found : Option (ScoredSet Bytes)}
    (h : SetsMatch limit zs c.sets) (key : Bytes) (hzs : zs'.value = Function.update zs.value key found)
    (hfound : Option.Rel (ScoredSet.Represents limit) found (if s.keys = ∅ then none else some s)) :
    SetsMatch limit zs' (c.withMembers key s).sets := by
  intro key'
  rw [hzs, c.withMembers_value]
  by_cases hkey : key' = key
  · rw [hkey, Function.update_self, Function.update_self]
    exact hfound
  · rw [Function.update_of_ne hkey, Function.update_of_ne hkey]
    exact h key'

theorem setsMatch_empty (limit : Nat) : SetsMatch limit .empty .empty := fun _ => Option.Rel.none

theorem represents_empty (config : Config) (now : Stamp) : (empty config now).Represents config .empty where
  settings := rfl
  values := OrderedMap.represents_empty now config.keyLimit
  sets := ⟨.empty, OrderedMap.represents_empty (now + 1) config.keyLimit, setsMatch_empty config.keyLimit⟩

/-! ## Questions -/

section Questions

variable {config : Config} {k : Keyspace} {c : Contents}

/-- The set under a key, beside the members it stands for. -/
theorem Represents.set?_eq (h : k.Represents config c) (key : Bytes) :
    ∃ found, k.set? key = .ok found ∧ Option.Rel (ScoredSet.Represents config.keyLimit) found (c.sets.value key) := by
  obtain ⟨zs, hzs, hmatch⟩ := h.sets
  exact ⟨zs.value key, hzs.agrees.get? key, hmatch key⟩

/-- A question about a set is put to the members, and a set that is not there has none. -/
theorem Represents.ask_set {α : Type} (h : k.Represents config c) (key : Bytes) (absent : α)
    (ask : ScoredSet Bytes → Except Fault α) (answer : FiniteMap (Scored Bytes) → α) (hempty : answer .empty = absent)
    (hask : ∀ z s, ScoredSet.Represents config.keyLimit z s → ask z = .ok (answer s)) :
    (do
      match ← k.set? key with
      | none => return absent
      | some z => ask z : Except Fault α) = .ok (answer (c.members key)) := by
  obtain ⟨found, hfound, hrel⟩ := h.set?_eq key
  rw [hfound]
  generalize hvalue : c.sets.value key = met at hrel
  cases hrel with
  | none =>
      rw [c.members_of_absent hvalue, hempty]
      rfl
  | some hz =>
      rw [c.members_of_value hvalue]
      exact hask _ _ hz

/-- **A keyspace answers every question like its contents.** -/
theorem Represents.look_eq (h : k.Represents config c) (q : Lookup) : k.look q = .ok (c.look q) := by
  have hvalues := h.values.agrees
  cases q with
  | size => exact congrArg Except.ok hvalues.size
  | get key => exact hvalues.get? key
  | contains key =>
      show Except.ok (k.values.contains key) = .ok (decide (key ∈ c.values.keys))
      rw [hvalues.contains, c.values.isSome_eq_decide]
  | longest key =>
      obtain ⟨met, hmet, hitem⟩ := h.values.longest?_eq key
      show Option.map Leaf.item <$> k.values.longest? key = .ok (c.values.longest key)
      rw [hmet, ← hitem]
      rfl
  | setCount =>
      obtain ⟨zs, hzs, hmatch⟩ := h.sets
      exact congrArg Except.ok (hzs.agrees.size.trans hmatch.card_eq)
  | card key =>
      have hcard := h.ask_set key 0 (fun z => .ok z.card) FiniteMap.card rfl
        fun z s hz => congrArg Except.ok hz.agrees.card
      show k.card key = .ok (c.members key).card
      rw [← hcard]
      unfold Keyspace.card
      refine bind_congr fun found => ?_
      cases found <;> rfl
  | score key member =>
      exact h.ask_set key none (fun z => z.score? member) (fun s => (s.value member).map Scored.score) rfl
        fun z s hz => hz.agrees.score? member
  | rangeUnder key start opts =>
      refine h.ask_set key [] (fun z => z.rangeUnder start opts)
        (fun s => opts.select (s.byKey.filter fun row => start <+: row.1)) ?_ fun z s hz => hz.rangeUnder_eq start opts
      rw [FiniteMap.byKey_empty, List.filter_nil, ScoredSet.select_nil]
  | rangeBetween key min max opts =>
      refine h.ask_set key [] (fun z => z.rangeBetween min max opts)
        (fun s => opts.select (s.byScore.filter (ScoreBound.admits min max))) ?_
        fun z s hz => hz.rangeBetween_eq min max opts
      rw [FiniteMap.byScore_empty, List.filter_nil, ScoredSet.select_nil]

end Questions

end Keyspace

end OrderedStore
