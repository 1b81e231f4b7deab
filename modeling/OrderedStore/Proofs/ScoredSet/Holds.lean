import Mathlib.Tactic
import OrderedStore.Proofs.ScoredSet.Buckets

/-!
# What a scored set holds

A scored set keeps every member twice. It *holds* a list of entries when the map by member holds them and the
tiers have the same members with the same scores and payloads in stock. Writing one member changes both
copies; every statement here says what becomes of the list, and that the two copies are still the same.
-/

namespace OrderedStore.ScoredSet

open Edit Tier
open Entry (PartsAt)

variable {V : Type}

/-- The map by member has these entries, and the stock of the tiers is the same. -/
structure Holds (z : ScoredSet V) (es : List (Entry (Scored V))) (tiers : List (Tier V)) : Prop where
  members : z.byMember.Holds es
  tiered : z.Tiered tiers
  same : ((stock tiers).map Entry.item).Perm (es.map Entry.item)

variable {z : ScoredSet V} {es xs ys : List (Entry (Scored V))} {e : Entry (Scored V)} {tiers : List (Tier V)}
  {score : Binary64} {member : Bytes} {payload : V} {key oldKey : ScoreKey}

theorem empty_yields (limit : Nat) :
    (empty V limit).Yields fun z => z.byMember.keyLimit = limit ∧ z.Holds [] [] := by
  unfold empty
  refine Yields.bind_fresh fun stamp => ?_
  refine Yields.bind_fresh fun stamp' => ?_
  refine Yields.pure ⟨rfl, OrderedMap.holds_empty stamp limit, ?_, List.Perm.refl _⟩
  exact ⟨OrderedMap.holds_empty stamp' _, (by decide : 8 ≤ OrderedMap.defaultKeyLimit), by simp, Pool.chained_empty, rfl⟩

/-! ## The two copies -/

theorem Holds.length_stock (h : z.Holds es tiers) : (stock tiers).length = es.length := by
  have hlen := h.same.length_eq
  rwa [List.length_map, List.length_map] at hlen

/-- The other copy of an entry. -/
theorem Holds.twin (h : z.Holds es tiers) (he : e ∈ es) :
    ∃ twin ∈ stock tiers, twin.key = e.key ∧ twin.value = e.value := by
  obtain ⟨twin, htwin, hitem⟩ := List.mem_map.1 (h.same.mem_iff.2 (List.mem_map_of_mem he))
  exact ⟨twin, htwin, congrArg Prod.fst hitem, congrArg Prod.snd hitem⟩

/-- The score of every member is a number. -/
theorem Holds.scored (h : z.Holds es tiers) (he : e ∈ es) : ∃ key, ScoreKey.ofScore e.value.score = .ok key := by
  obtain ⟨twin, htwin, -, hvalue⟩ := h.twin he
  obtain ⟨s, hs, hmem⟩ := mem_stock.1 htwin
  exact ⟨s.key, hvalue ▸ (h.tiered.good s hs).scored twin hmem⟩

theorem Holds.not_in_stock (h : z.Holds es tiers) (hp : PartsAt member es xs [] ys) :
    ∀ x ∈ stock tiers, x.key ≠ member := by
  intro x hx hkey
  obtain ⟨e, he, hitem⟩ := List.mem_map.1 (h.same.mem_iff.1 (List.mem_map_of_mem hx))
  have hparts := hp.absent_eq
  rw [hparts] at he
  exact hp.ne_of_around e he ((congrArg Prod.fst hitem).trans hkey)

/-- A member that is put into both copies. -/
theorem same_insert {ss ss' : List (Entry (Scored V))} {e' : Entry (Scored V)}
    (h : (ss.map Entry.item).Perm ((xs ++ ys).map Entry.item)) (hss : ss'.Perm (e' :: ss)) (he : e'.item = e.item) :
    (ss'.map Entry.item).Perm ((xs ++ e :: ys).map Entry.item) := by
  refine (hss.map Entry.item).trans ?_
  rw [List.map_cons, he]
  exact (h.cons _).trans (List.perm_middle.map Entry.item).symm

/-- A member that is taken out of both copies. -/
theorem same_erase {ss ss' : List (Entry (Scored V))} {e' : Entry (Scored V)}
    (h : (ss.map Entry.item).Perm ((xs ++ e :: ys).map Entry.item)) (hss : ss.Perm (e' :: ss'))
    (he : e'.item = e.item) : (ss'.map Entry.item).Perm ((xs ++ ys).map Entry.item) := by
  refine List.Perm.cons_inv (a := e.item) ?_
  rw [← he, ← List.map_cons, he, ← List.map_cons]
  exact (hss.map Entry.item).symm.trans (h.trans (List.perm_middle.map Entry.item))

/-! ## Putting a member -/

theorem put_of_absent (hscore : ScoreKey.ofScore score = .ok key) (hget : z.byMember.get? member = .ok none) :
    z.put score member payload = do
      let z ← z.insertIntoBucket key member ⟨score, payload⟩
      let byMember ← z.byMember.insertOrKeep member ⟨score, payload⟩
      return (true, { z with byMember }) := by
  unfold put
  rw [hscore, hget]
  rfl

theorem put_of_kept {old : Scored V} (hscore : ScoreKey.ofScore score = .ok key)
    (hget : z.byMember.get? member = .ok (some old)) (hold : ScoreKey.ofScore old.score = .ok key) :
    z.put score member payload = do
      let (_, _, z) ← z.editBucket key fun bucket chain => bucket.insert chain member ⟨score, payload⟩
      let byMember ← z.byMember.insertOrKeep member ⟨score, payload⟩
      return (false, { z with byMember }) := by
  unfold put
  simp only [hscore, hget, lift_ok_bind, Option.mapM_some, bind_map_left, hold]
  rw [if_pos trivial]
  rfl

theorem put_of_moved {old : Scored V} (hscore : ScoreKey.ofScore score = .ok key)
    (hget : z.byMember.get? member = .ok (some old)) (hold : ScoreKey.ofScore old.score = .ok oldKey)
    (hne : oldKey ≠ key) :
    z.put score member payload = do
      let z ← z.eraseFromBucket oldKey member
      let z ← z.insertIntoBucket key member ⟨score, payload⟩
      let byMember ← z.byMember.insertOrKeep member ⟨score, payload⟩
      return (false, { z with byMember }) := by
  unfold put
  simp only [hscore, hget, lift_ok_bind, Option.mapM_some, bind_map_left, hold]
  rw [if_neg hne]
  rfl

/-- **A new member.** -/
theorem Holds.put_new (h : z.Holds es tiers) (hlen : member.length ≤ z.byMember.keyLimit)
    (hp : PartsAt member es xs [] ys) (hscore : ScoreKey.ofScore score = .ok key) (hroom : es.length < Pool.slotLimit) :
    (z.put score member payload).Yields fun (isNew, z') => isNew = true ∧
      z'.byMember.keyLimit = z.byMember.keyLimit ∧
        ∃ e tiers', e.key = member ∧ e.value = ⟨score, payload⟩ ∧ z'.Holds (xs ++ e :: ys) tiers' := by
  have hes := hp.absent_eq
  rw [put_of_absent hscore (h.members.get?_absent hp)]
  refine Yields.bind (h.tiered.insertIntoBucket_yields hscore (h.not_in_stock hp)
    (h.length_stock ▸ hroom)) ?_
  rintro z₁ ⟨hby, e', tiers', hkey', hvalue', htiered, hperm⟩
  rw [hby]
  refine Yields.bind (h.members.insertOrKeep_new hlen hp hroom) ?_
  rintro byMember ⟨hlimit, e, hkey, hvalue, hmembers⟩
  refine Yields.pure ⟨rfl, hlimit, e, tiers', hkey, hvalue, hmembers, htiered.withMembers byMember, ?_⟩
  have hsame := h.same
  rw [hes] at hsame
  exact same_insert hsame hperm (Prod.ext (hkey'.trans hkey.symm) (hvalue'.trans hvalue.symm))

/-- The copy in the map by member changes after the one on the tiers. -/
theorem Holds.put_copy_yields (h : z.Holds es tiers) (hlen : e.key.length ≤ z.byMember.keyLimit)
    (hp : PartsAt e.key es xs [e] ys) {z₁ : ScoredSet V}
    {e₀ e₁ : Entry (Scored V)} {rest : List (Entry (Scored V))} {tiers' : List (Tier V)} {isNew : Bool}
    (hby : z₁.byMember = z.byMember) (he₀ : e₀.item = e.item) (he₁ : e₁.item = (e.key, ⟨score, payload⟩))
    (htiered : z₁.Tiered tiers') (hbefore : (stock tiers).Perm (e₀ :: rest))
    (hafter : (stock tiers').Perm (e₁ :: rest)) :
    (do
      let byMember ← z₁.byMember.insertOrKeep e.key ⟨score, payload⟩
      return (isNew, { z₁ with byMember }) : Edit (Bool × ScoredSet V)).Yields fun (isNew', z') =>
        isNew' = isNew ∧ z'.byMember.keyLimit = z.byMember.keyLimit ∧
          ∃ tiers', z'.Holds (xs ++ { e with value := ⟨score, payload⟩ } :: ys) tiers' := by
  -- the stock changes by one member, and the entries by the same one
  have hsame := h.same
  rw [hp.present_eq] at hsame
  rw [hby]
  refine Yields.bind (h.members.insertOrKeep_old hlen hp) ?_
  rintro byMember ⟨hlimit, hmembers⟩
  refine Yields.pure ⟨rfl, hlimit, tiers', hmembers, htiered.withMembers byMember, ?_⟩
  exact same_insert (same_erase hsame hbefore he₀) hafter he₁

/-- Once a member has left the tiers, there is room on them and it is not on them any more. -/
theorem Holds.left_stock (h : z.Holds es tiers) (hp : PartsAt e.key es xs [e] ys) {e₀ : Entry (Scored V)}
    {tiers₁ : List (Tier V)} (he₀ : e₀.item = e.item) (hperm : (stock tiers).Perm (e₀ :: stock tiers₁)) :
    (stock tiers₁).length < Pool.slotLimit ∧ ∀ x ∈ stock tiers₁, x.key ≠ e.key := by
  constructor
  · have hle := h.tiered.chained.sound.live_le
    rw [h.tiered.live, hperm.length_eq, List.length_cons] at hle
    omega
  · intro x hx hkey
    have hsame := h.same
    rw [hp.present_eq] at hsame
    have hrest := same_erase hsame hperm he₀
    obtain ⟨y, hy, hitem⟩ := List.mem_map.1 (hrest.mem_iff.1 (List.mem_map_of_mem hx))
    exact hp.ne_of_around y hy ((congrArg Prod.fst hitem).trans hkey)

/-- **A member that is there**, at its score or at another one. -/
theorem Holds.put_old (h : z.Holds es tiers) (hlen : e.key.length ≤ z.byMember.keyLimit)
    (hp : PartsAt e.key es xs [e] ys) (hscore : ScoreKey.ofScore score = .ok key) :
    (z.put score e.key payload).Yields fun (isNew, z') => isNew = false ∧
      z'.byMember.keyLimit = z.byMember.keyLimit ∧
        ∃ tiers', z'.Holds (xs ++ { e with value := ⟨score, payload⟩ } :: ys) tiers' := by
  have he : e ∈ es := by
    rw [hp.parts]
    simp
  obtain ⟨oldKey, hold⟩ := h.scored he
  obtain ⟨twin, htwin, hkey, hvalue⟩ := h.twin he
  have hitem : twin.item = e.item := Prod.ext hkey hvalue
  by_cases hkept : oldKey = key
  · subst hkept
    rw [put_of_kept hscore (h.members.get?_old hp) hold, ← hkey]
    refine Yields.bind (h.tiered.restore_yields htwin (hvalue ▸ hold) hscore) ?_
    rintro ⟨_, _, z₁⟩ ⟨hby, tiers', rest, htiered, hbefore, hafter⟩
    have hitem' : ({ twin with value := ⟨score, payload⟩ } : Entry (Scored V)).item = (e.key, ⟨score, payload⟩) :=
      Prod.ext hkey rfl
    rw [hkey]
    exact h.put_copy_yields hlen hp hby hitem hitem' htiered hbefore hafter
  · -- the member leaves its tier before it gets to the other one
    rw [put_of_moved hscore (h.members.get?_old hp) hold hkept, ← hkey]
    refine Yields.bind (h.tiered.eraseFromBucket_yields htwin (hvalue ▸ hold)) ?_
    rintro z₁ ⟨hby₁, tiers₁, htiered₁, hbefore⟩
    obtain ⟨hroom, hnew⟩ := h.left_stock hp hitem hbefore
    rw [hkey]
    refine Yields.bind (htiered₁.insertIntoBucket_yields hscore hnew hroom) ?_
    rintro z₂ ⟨hby₂, e', tiers', hkey', hvalue', htiered, hafter⟩
    exact h.put_copy_yields hlen hp (hby₂.trans hby₁) hitem (Prod.ext hkey' hvalue') htiered hbefore hafter

theorem Holds.put_faults (h : z.Holds es tiers) (hp : PartsAt member es xs [] ys)
    (hscore : ScoreKey.ofScore score = .ok key) (hfull : Pool.slotLimit ≤ es.length) :
    (z.put score member payload).Faults .poolExhausted := by
  rw [put_of_absent hscore (h.members.get?_absent hp)]
  exact Faults.bind (h.tiered.insertIntoBucket_faults (h.not_in_stock hp) (h.length_stock ▸ hfull))

/-! ## Removing a member -/

theorem Holds.erase_old (h : z.Holds es tiers) (hp : PartsAt e.key es xs [e] ys) :
    (z.erase e.key).Yields fun (old, z') => old = some e.value ∧
      z'.byMember.keyLimit = z.byMember.keyLimit ∧ ∃ tiers', z'.Holds (xs ++ ys) tiers' := by
  have hes := hp.present_eq
  have he : e ∈ es := by
    rw [hes]
    simp
  have hsame := h.same
  rw [hes] at hsame
  obtain ⟨oldKey, hold⟩ := h.scored he
  obtain ⟨twin, htwin, hkey, hvalue⟩ := h.twin he
  unfold erase
  refine Yields.bind (h.members.erase_old hp) ?_
  rintro ⟨_, byMember⟩ ⟨rfl, hlimit, hmembers⟩
  refine Yields.bind_lift hold ?_
  have htiered := h.tiered.withMembers byMember
  rw [← hkey]
  refine Yields.bind (htiered.eraseFromBucket_yields htwin (hvalue ▸ hold)) ?_
  rintro z' ⟨hby, tiers', htiered', hbefore⟩
  refine Yields.pure ⟨rfl, by rw [hby, hlimit], tiers', hby ▸ hmembers, htiered', ?_⟩
  exact same_erase hsame hbefore (Prod.ext hkey hvalue)

theorem Holds.erase_absent (h : z.Holds es tiers) (hp : PartsAt member es xs [] ys) :
    z.erase member = pure (none, z) := by
  unfold erase
  rw [h.members.erase_absent hp]
  rfl

end OrderedStore.ScoredSet
