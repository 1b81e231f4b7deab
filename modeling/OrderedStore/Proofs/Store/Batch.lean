import Mathlib.Tactic
import OrderedStore.Proofs.ScoredSet.Batch
import OrderedStore.Proofs.Store.Admissible

/-!
# Batches in a transaction

A transaction looks at the key and then at the whole batch before it writes, and a set made for the batch is kept
only after the batch is in it. So a batch that is refused, for its key or for an item, leaves the transaction as it
was, its mark included, and makes no set; and every refusal is one of these two, for nothing that comes later is
refused. This holds in the middle of every operation, whatever was written before.
-/

namespace OrderedStore

open Edit
open ScoredSet (refusalOf? membersOf latest?)

namespace Contents

variable {config : Config} {c : Contents} {key : Bytes} {items : List (ScoredSet.Item Bytes)}

/-- There are slot numbers for the members of a batch, and one for the set if it is new. -/
def Room (c : Contents) (key : Bytes) (items : List (ScoredSet.Item Bytes)) : Prop :=
  (c.members key).Room items ∧ (key ∈ c.sets.keys ∨ c.sets.card < Pool.slotLimit)

/-- A batch of good items that there is room for is laid over the members there are. -/
theorem answer_addMembers (hcheck : KeyRules.check config key = .ok ()) (hok : refusalOf? config.keyLimit items = none)
    (hroom : c.Room key items) :
    c.answer config (.addMembers key items) =
      .ok (.ok ((c.members key).fresh items).card, c.withMembers key ((c.members key).overlay items)) := by
  unfold refusalOf? at hok
  rw [answer, hcheck]
  dsimp only
  cases items with
  | nil =>
      -- without items nothing is written, and nothing is laid over the members
      have hnone : ((c.members key).fresh []).card = 0 := by simp [FiniteMap.fresh, membersOf]
      rw [hnone, FiniteMap.overlay, c.withMembers_members]
      exact if_pos rfl
  | cons item items =>
      rw [if_neg (by simp), hok]
      dsimp only
      rw [((c.members key).putAll_eq _).1 hroom.1]
      exact if_neg fun hfull => hroom.2.elim hfull.1 (Nat.not_lt_of_le hfull.2)

theorem answer_addMembers_full (hcheck : KeyRules.check config key = .ok ())
    (hok : refusalOf? config.keyLimit items = none) (hne : items ≠ []) (hfull : ¬ c.Room key items) :
    c.answer config (.addMembers key items) = .error .poolExhausted := by
  unfold refusalOf? at hok
  rw [answer, hcheck]
  dsimp only
  rw [if_neg (by simpa using hne), hok]
  dsimp only
  by_cases hroom : (c.members key).Room items
  · rw [((c.members key).putAll_eq items).1 hroom]
    refine if_pos ⟨fun hkey => hfull ⟨hroom, Or.inl hkey⟩, Nat.le_of_not_lt fun hlt => hfull ⟨hroom, Or.inr hlt⟩⟩
  · rw [((c.members key).putAll_eq items).2 hroom]
    rfl

end Contents

namespace Transaction

variable {config : Config} {t : Transaction} {c : Contents} {key : Bytes} {items : List (ScoredSet.Item Bytes)}

/-- The members that a batch lists and the set under the key does not have yet. -/
def newcomersOf (t : Transaction) (key : Bytes) (items : List (ScoredSet.Item Bytes)) : Finset Bytes :=
  (membersOf items).filter fun member => t.space.score? key member = .ok none

/-- There are slot numbers for the new members of a batch, and one for the set if there is none under the key. -/
def RoomFor (t : Transaction) (key : Bytes) (items : List (ScoredSet.Item Bytes)) : Prop :=
  (∃ n, t.space.card key = .ok n ∧ n + (t.newcomersOf key items).card ≤ Pool.slotLimit) ∧
    (t.space.sets.contains key = true ∨ t.space.setCount < Pool.slotLimit)

/-- What becomes of a batch in a transaction. If the key is refused, or else an item, the transaction is left as it
was: every read, every set there is, and whether it has changed anything. It answers no other error. A good batch is
all written, and counts its new members, each once. -/
structure AddsWhole (config : Config) (t : Transaction) (key : Bytes) (items : List (ScoredSet.Item Bytes)) : Prop where
  refusedKey : ∀ reason, KeyRules.check config key = .error reason → ∀ now,
    (t.addMembers key items).run now = .ok ((.error reason, t), now)
  refused : ∀ reason, KeyRules.check config key = .ok () → refusalOf? config.keyLimit items = some reason →
    (t.addMembers key items).Yields fun (result, t') => result = .error reason ∧ t' = t
  kept : (t.addMembers key items).Ensures fun (result, t') => ∀ reason, result = .error reason →
    t' = t ∧ (KeyRules.check config key = .error reason ∨ refusalOf? config.keyLimit items = some reason)
  added : KeyRules.check config key = .ok () → refusalOf? config.keyLimit items = none → t.RoomFor key items →
    (t.addMembers key items).Yields fun (result, t') =>
      result = .ok (t.newcomersOf key items).card ∧
        ∀ key' member, t'.space.score? key' member =
          (if key' = key then latest? items member else none).elim (t.space.score? key' member) fun scored =>
            .ok (some scored.score)
  exhausted : KeyRules.check config key = .ok () → refusalOf? config.keyLimit items = none → items ≠ [] →
    ¬ t.RoomFor key items → (t.addMembers key items).Faults .poolExhausted

theorem Represents.score?_eq (h : t.Represents config c) (key member : Bytes) :
    t.space.score? key member = .ok (((c.members key).value member).map Scored.score) :=
  Keyspace.Represents.look_eq h (.score key member)

theorem Represents.newcomersOf_eq (h : t.Represents config c) (key : Bytes) (items : List (ScoredSet.Item Bytes)) :
    t.newcomersOf key items = (c.members key).fresh items := by
  ext member
  rw [newcomersOf, FiniteMap.fresh, Finset.mem_filter, Finset.mem_sdiff, h.score?_eq, Except.ok.injEq,
    Option.map_eq_none_iff, ← (c.members key).value_isSome, Option.not_isSome_iff_eq_none]

theorem Represents.card_members_le (h : t.Represents config c) (key : Bytes) :
    (c.members key).card ≤ Pool.slotLimit := by
  obtain ⟨found, -, hrel⟩ := Keyspace.Represents.set?_eq h key
  generalize hvalue : c.sets.value key = met at hrel
  cases hrel with
  | none =>
      rw [c.members_of_absent hvalue]
      exact Nat.zero_le _
  | some hz =>
      rw [c.members_of_value hvalue]
      exact hz.card_le

theorem Represents.room_iff (h : t.Represents config c) (key : Bytes) (items : List (ScoredSet.Item Bytes)) :
    c.Room key items ↔ t.RoomFor key items := by
  have hcard : t.space.card key = .ok (c.members key).card := Keyspace.Represents.look_eq h (.card key)
  have hcount : Except.ok t.space.setCount = Except.ok (ε := Fault) c.sets.card :=
    Keyspace.Represents.look_eq h .setCount
  have hle := h.card_members_le key
  unfold Contents.Room FiniteMap.Room RoomFor
  rw [h.newcomersOf_eq, Keyspace.Represents.mem_sets_iff h, hcard, Except.ok.inj hcount]
  refine and_congr_left fun _ => ?_
  constructor
  · intro hroom
    exact ⟨_, rfl, by omega⟩
  · rintro ⟨n, hn, hroom⟩
    obtain rfl := Except.ok.inj hn
    exact Or.inr hroom

theorem Represents.addsWhole (h : t.Represents config c) (key : Bytes) (items : List (ScoredSet.Item Bytes)) :
    t.AddsWhole config key items where
  refusedKey := by
    intro reason hreason now
    unfold addMembers
    rw [Keyspace.Represents.settings h, hreason]
    rfl
  refused := by
    intro reason hcheck hreason
    unfold refusalOf? at hreason
    have hmeets := h.addMembers_meets key items
    have hne : items.isEmpty = false := by
      cases items with
      | nil => cases hreason
      | cons item items => rfl
    rw [Contents.answer, hcheck] at hmeets
    dsimp only at hmeets
    rw [if_neg (by simp [hne]), hreason] at hmeets
    -- the answer is an error, and one that tells of no change
    refine (Yields.with hmeets (addMembers_ensures key items)).mono ?_
    rintro ⟨result, t'⟩ ⟨⟨rfl, -⟩, hleads⟩
    exact ⟨rfl, hleads.kept rfl⟩
  kept := by
    rintro now ⟨result, t'⟩ next hrun reason rfl
    have hleads := addMembers_ensures key items now _ next hrun
    refine ⟨hleads.kept rfl, ?_⟩
    obtain ⟨c', hanswer, -⟩ := (h.addMembers_meets key items).of_run hrun
    rcases Contents.addMembers_cases hanswer with ⟨-, hrefused⟩ | ⟨-, -, count, z, -, hadded, -⟩
    · exact hrefused reason rfl
    · cases hadded
  added := by
    intro hcheck hok hroom
    have hmeets := h.addMembers_meets key items
    rw [Contents.answer_addMembers hcheck hok ((h.room_iff key items).2 hroom)] at hmeets
    refine Yields.mono hmeets ?_
    rintro ⟨result, t'⟩ ⟨hresult, ht'⟩
    refine ⟨by rw [hresult, h.newcomersOf_eq], fun key' member => ?_⟩
    have ht'' : t'.Represents config _ := ht'
    rw [ht''.score?_eq, h.score?_eq, c.members_withMembers]
    split
    · rename_i hkey
      rw [hkey, FiniteMap.overlay_value]
      cases latest? items member <;> rfl
    · rfl
  exhausted := by
    intro hcheck hok hne hfull
    have hmeets := h.addMembers_meets key items
    rwa [Contents.answer_addMembers_full hcheck hok hne fun hroom => hfull ((h.room_iff key items).1 hroom)] at hmeets

end Transaction

/-! ## Every batch -/

/-- **A batch is added as a whole or not at all**: to every scored set that calls lead to, and in the middle of every
operation on a store. -/
theorem batches_whole {V : Type} {z : ScoredSet V} {config : Config} {s : Scene} {r : Running} (hz : z.Reachable)
    (hs : Scene.Reachable config s) (hr : s.running = some r) :
    (∀ items, z.AddsWhole items) ∧ ∀ key items, r.state.AddsWhole config key items := by
  obtain ⟨limit, members, hmembers⟩ := hz.represents
  obtain ⟨c, hc, -⟩ := hs.keeps.running r hr
  exact ⟨fun items => hmembers.addsWhole items, fun key items => Transaction.Represents.addsWhole hc key items⟩

/-- A member twice and a score that is no number after it: an operation that has just begun adds neither, and makes no
set. -/
theorem batch_with_nan_whole :
    let items : List (ScoredSet.Item Bytes) := [(.zero, [1], []), (.infinity, [1], []), (.nan, [2], [])]
    ∃ (z : ScoredSet Bytes) (s : Scene) (r : Running), z.Reachable ∧ Scene.Reachable {} s ∧ s.running = some r ∧
      (∀ now, (z.perform (.insertAll items)).run now = .ok ((.insertedAll (.error (.invalidScore "NaN")), z), now)) ∧
      (r.state.addMembers [99] items).Yields fun (result, t') =>
        result = .error (.invalidScore "NaN") ∧ t' = r.state ∧ t'.space.sets.contains [99] = false := by
  intro items
  obtain ⟨z, next, hempty, hlimit, -⟩ := ScoredSet.empty_yields (V := Bytes) OrderedMap.defaultKeyLimit 0
  have hz : z.Reachable := ⟨_, 0, z, next, hempty, .here⟩
  let body : Program Unit Unit := .done ()
  have hstart : Scene.Reachable {} (Scene.start {}) := .start
  have hs := hstart.step (.begin body rfl)
  have hrefusal : ScoredSet.refusalOf? OrderedMap.defaultKeyLimit items = some (.invalidScore "NaN") := by decide
  have hwhole := batches_whole hz hs rfl
  refine ⟨z, _, _, hz, hs, rfl, (hwhole.1 items).refused _ (hlimit ▸ hrefusal), ?_⟩
  refine ((hwhole.2 [99] items).refused _ (by decide) hrefusal).mono ?_
  rintro ⟨result, t'⟩ ⟨hresult, rfl⟩
  exact ⟨hresult, rfl, (OrderedMap.represents_empty 1 OrderedMap.defaultKeyLimit).agrees.contains [99]⟩

end OrderedStore
