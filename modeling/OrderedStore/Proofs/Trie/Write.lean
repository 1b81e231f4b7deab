import Mathlib.Tactic
import OrderedStore.Proofs.Trie.Holds

/-!
# Writing a trie and its leaves together

The leaves of a trie are one stretch of a chain that may go on on either side into other tries. Every write
keeps the two in step: what happens to the entries the trie holds happens to the stretch, and what lies
before and after the stretch stays as it is. Only the first leaf of an empty trie has no neighbour to be
linked to; it is left alone in the pool. Leaves off the chain stay as they are, and the leaves of removed keys
are freed.
-/

namespace OrderedStore.Trie

open Edit
open Entry (PartsAt)

variable {V : Type} {t : Trie} {p : Pool V} {pre es post xs ys : List (Entry V)} {e : Entry V} {key : Bytes}
  {value : V}

theorem length_lt_bound (hc : p.Chained (pre ++ es ++ post)) (hroom : p.live < Pool.slotLimit) :
    es.length + 1 < Count.bound := by
  have hlen := hc.sound.length_le_live hc.nodup hc.strand.isSome
  rw [List.length_map, List.length_append, List.length_append] at hlen
  unfold Pool.slotLimit at hroom
  unfold Count.bound
  omega

/-- Link a lone leaf in next to the nearest leaf of the same trie, if there is one. -/
def splice (p : Pool V) (near : Neighbors) (id : Link) : Edit (Pool V) :=
  match near.below, near.above with
  | some pred, _ => p.spliceAfter pred id
  | none, some succ => p.spliceBefore succ id
  | none, none => pure p

theorem insert_of_none (t : Trie) (p : Pool V) (key : Bytes) (value : V) (h : t.find? key = none) :
    t.insert p key value = do
      let (id, leaves) ← p.put key value
      let root ← t.root.insert key id
      let leaves ← splice leaves (t.neighbors key) id
      return (none, ⟨root, Count.succ t.size⟩, leaves) := by
  unfold insert
  rw [h]
  dsimp only
  congr
  funext x
  congr
  funext root
  unfold splice
  rcases t.neighbors key with ⟨_ | pred, _ | succ⟩ <;> rfl

theorem splice_yields {id : LeafId} (hc : p.Chained (pre ++ es ++ post)) (hp : PartsAt key es xs [] ys)
    (he : p.Alone ⟨id, key, value⟩) (hid : id ∉ (pre ++ es ++ post).map Entry.id) :
    (splice p ⟨xs.getLast?.map fun e => some e.id, ys.head?.map fun e => some e.id⟩ id).Yields fun p' =>
      p'.live = p.live ∧ (es ≠ [] → p'.Chained (pre ++ (xs ++ ⟨id, key, value⟩ :: ys) ++ post)) ∧
        (es = [] → p'.Chained (pre ++ post) ∧ p'.Alone ⟨id, key, value⟩) ∧
        p.SameOff p' ((pre ++ (xs ++ ⟨id, key, value⟩ :: ys) ++ post).map Entry.id) := by
  have hes := hp.absent_eq
  subst hes
  -- with an entry before the key the leaf goes after it, otherwise before the one that follows
  rcases List.eq_nil_or_concat' xs with rfl | ⟨ws, w, rfl⟩
  · cases ys with
    | nil =>
        refine Yields.pure ⟨rfl, fun hne => absurd rfl hne, fun _ => ⟨?_, he⟩, fun _ _ => rfl⟩
        simpa using hc
    | cons y ys =>
        -- the chain is cut where the leaf goes in, across the bounds of the trie
        have hcut : pre ++ ([] ++ y :: ys) ++ post = pre ++ (y :: (ys ++ post)) := by simp
        rw [hcut] at hc hid
        refine (Pool.spliceBefore_yields hc (by simp) he hid).mono ?_
        rintro p' ⟨hc', hlive, hoff⟩
        refine ⟨hlive, fun _ => ?_, fun hnil => absurd hnil (by simp), ?_⟩
        · simpa using hc'
        · simpa using hoff
  · have hcut : pre ++ (ws ++ [w] ++ ys) ++ post = (pre ++ (ws ++ [w])) ++ (ys ++ post) := by simp
    have hlast : Entry.last (pre ++ (ws ++ [w])) = some w.id := by
      rw [Entry.last_append, Entry.last_concat, Option.some_or]
    rw [hcut] at hc hid
    have hsplice := Pool.spliceAfter_yields hc (by simp) he hid
    rw [hlast] at hsplice
    rw [List.getLast?_concat]
    refine hsplice.mono ?_
    rintro p' ⟨hc', hlive, hoff⟩
    refine ⟨hlive, fun _ => ?_, fun hnil => absurd hnil (by simp), ?_⟩
    · simpa using hc'
    · simpa using hoff

/-- **A new key** gets a new leaf, at its place in the trie and in the chain. -/
theorem Holds.insert_new (h : t.Holds es) (hc : p.Chained (pre ++ es ++ post)) (hp : PartsAt key es xs [] ys)
    (hroom : p.live < Pool.slotLimit) :
    (t.insert p key value).Yields fun (old, t', p') =>
      old = none ∧ ∃ e : Entry V, e.key = key ∧ e.value = value ∧ t'.Holds (xs ++ e :: ys) ∧
        p'.live = p.live + 1 ∧ e.id ∉ (pre ++ es ++ post).map Entry.id ∧
        (es ≠ [] → p'.Chained (pre ++ (xs ++ e :: ys) ++ post)) ∧
        (es = [] → p'.Chained (pre ++ post) ∧ p'.Alone e) ∧
        p.SameOff p' ((pre ++ (xs ++ e :: ys) ++ post).map Entry.id) ∧ p.leaf? e.id = none := by
  have hlen := length_lt_bound hc hroom
  rw [insert_of_none t p key value (h.find?_eq hp), h.neighbors_eq hp]
  refine Yields.bind (Pool.put_chained hc hroom) ?_
  rintro ⟨id, p₁⟩ ⟨hid, hc₁, he₁, hlive₁, hvacant, hoff₁⟩
  refine Yields.bind (h.regular.insert_yields (h.splitsAt hp)) ?_
  rintro root ⟨hroot, -⟩
  refine Yields.bind (splice_yields hc₁ hp he₁ hid) ?_
  rintro p' ⟨hlive, hchain, hlone, hoff⟩
  refine Yields.pure ⟨rfl, ⟨id, key, value⟩, rfl, rfl, ⟨hroot.regular, ?_, ?_, ?_⟩, ?_, hid, hchain, hlone,
    Pool.SameOff.trans hoff₁ hoff (by simp) (List.Subset.refl _), hvacant⟩
  · rw [hroot.segment, h.path]
  · rw [hroot.listing, Entry.listed_append, Entry.listed_cons]
  · dsimp only
    rw [h.size, Count.succ_of_lt hlen, hp.parts]
    simp only [List.length_append, List.length_cons, List.length_nil]
    omega
  · rw [hlive, hlive₁]

/-- **A key that is there** keeps its leaf and gets the new value. -/
theorem Holds.insert_old (h : t.Holds es) (hc : p.Chained (pre ++ es ++ post)) (hp : PartsAt e.key es xs [e] ys) :
    (t.insert p e.key value).Yields fun (old, t', p') =>
      old = some e.value ∧ t'.Holds (xs ++ { e with value } :: ys) ∧ p'.live = p.live ∧
        p'.Chained (pre ++ (xs ++ { e with value } :: ys) ++ post) ∧ p.SameOff p' [e.id] := by
  have hes := hp.present_eq
  have hcut : pre ++ es ++ post = (pre ++ xs) ++ e :: (ys ++ post) := by simp [hes]
  rw [hcut] at hc
  unfold insert
  rw [h.find?_eq hp]
  dsimp only
  refine Yields.bind_lift (Pool.get_ok (Pool.leaf?_of_mem hc)) ?_
  refine Yields.bind (Pool.modify_chained (f := fun _ => value) hc) ?_
  rintro p' ⟨hc', hlive, hoff⟩
  refine Yields.pure ⟨rfl, ⟨h.regular, h.path, ?_, ?_⟩, hlive, ?_, hoff⟩
  · rw [h.listing, hes]
    simp
  · rw [h.size, hes]
    simp
  · simpa using hc'

/-- A new key finds no room in a pool that is full. -/
theorem Holds.insert_faults (h : t.Holds es) (hc : p.Chained (pre ++ es ++ post)) (hp : PartsAt key es xs [] ys)
    (hfull : Pool.slotLimit ≤ p.live) : (t.insert p key value).Faults .poolExhausted := by
  unfold insert
  rw [h.find?_eq hp]
  exact Faults.bind (Pool.put_faults hc.sound hfull)

/-- **Removing a key** frees its leaf and ties its neighbours together. -/
theorem Holds.erase_old (h : t.Holds es) (hc : p.Chained (pre ++ es ++ post)) (hp : PartsAt e.key es xs [e] ys) :
    (t.erase p e.key).Yields fun (old, t', p') =>
      old = some e.value ∧ t'.Holds (xs ++ ys) ∧ p'.live + 1 = p.live ∧ p'.Chained (pre ++ (xs ++ ys) ++ post) ∧
        p'.leaf? e.id = none ∧ p.SameOff p' ((pre ++ es ++ post).map Entry.id) := by
  have hes := hp.present_eq
  have hcut : pre ++ es ++ post = (pre ++ xs) ++ e :: (ys ++ post) := by simp [hes]
  have hrest : (pre ++ xs) ++ (ys ++ post) = pre ++ (xs ++ ys) ++ post := by simp
  rw [hcut] at hc
  unfold erase
  rw [h.find?_eq hp]
  dsimp only
  refine Yields.bind (h.regular.erase_yields (h.splitsAt hp)) ?_
  rintro root hroot
  refine Yields.bind (Pool.unlink_yields hc) ?_
  rintro p₁ ⟨hc₁, he₁, hlive₁, hoff₁⟩
  refine Yields.bind (Pool.vacate_alone_yields hc₁ he₁ (Pool.nodup_mid hc.nodup).1) ?_
  rintro ⟨leaf, p'⟩ ⟨hvalue, hc', hlive, hnone, hoff⟩
  rw [hcut]
  refine Yields.pure ⟨congrArg some hvalue, ⟨hroot.regular, ?_, ?_, ?_⟩, ?_, hrest ▸ hc', hnone,
    Pool.SameOff.trans hoff₁ hoff (List.Subset.refl _) (by simp)⟩
  · rw [hroot.segment, h.path]
  · rw [hroot.listing, Entry.listed_append]
  · dsimp only
    rw [h.size, hes, List.length_append, List.length_cons, Count.less_of_le (by omega), List.length_append]
    omega
  · dsimp only
    rw [hlive, hlive₁]

/-- Removing a key that is not there changes nothing. -/
theorem Holds.erase_absent (h : t.Holds es) (hp : PartsAt key es xs [] ys) :
    t.erase p key = pure (none, t, p) := by
  unfold erase
  rw [h.find?_eq hp]
  rfl

/-- **Removing all keys that start with some bytes** frees their leaves as one run. -/
theorem Holds.eraseUnder_yields (h : t.Holds es) (hc : p.Chained (pre ++ es ++ post)) (start : Bytes) :
    (t.eraseUnder p start).Yields fun (count, t', p') =>
      ∃ xs ms ys, Entry.PartsUnder start es xs ms ys ∧ count = ms.length ∧ t'.Holds (xs ++ ys) ∧
        p'.live + count = p.live ∧ p'.Chained (pre ++ (xs ++ ys) ++ post) ∧
        (∀ id ∈ ms.map Entry.id, p'.leaf? id = none) ∧ p.SameOff p' ((pre ++ es ++ post).map Entry.id) := by
  obtain ⟨xs, ms, ys, hp, hs, hcov⟩ := h.covering?_parts start
  have hes := hp.parts
  -- with nothing within, everything stays as it is
  have nothing : ms = [] → ∃ xs ms ys, Entry.PartsUnder start es xs ms ys ∧ 0 = ms.length ∧ t.Holds (xs ++ ys) ∧
      p.live + 0 = p.live ∧ p.Chained (pre ++ (xs ++ ys) ++ post) ∧ (∀ id ∈ ms.map Entry.id, p.leaf? id = none) ∧
        p.SameOff p ((pre ++ es ++ post).map Entry.id) := by
    rintro rfl
    rw [List.append_nil] at hes
    exact ⟨xs, [], ys, hp, rfl, hes ▸ h, rfl, hes ▸ hc, by simp, fun _ _ => rfl⟩
  unfold eraseUnder
  cases htarget : t.covering? start with
  | none =>
      rw [htarget] at hcov
      exact Yields.pure (nothing hcov)
  | some target =>
      rw [htarget] at hcov
      obtain ⟨hleast, hgreatest⟩ := hcov
      dsimp only
      rw [hleast, hgreatest]
      split
      · rename_i hnone
        exact Yields.pure (nothing (Entry.first_eq_none_iff.1 hnone))
      · rename_i hsome
        have hms : ms ≠ [] := fun hnil => hsome (Entry.first_eq_none_iff.2 hnil)
        have hcut : pre ++ es ++ post = (pre ++ xs) ++ ms ++ (ys ++ post) := by simp [hes]
        have hrest : (pre ++ xs) ++ (ys ++ post) = pre ++ (xs ++ ys) ++ post := by simp
        rw [hcut] at hc
        refine Yields.bind (h.regular.eraseUnder_yields hs fun hnil => hms (Entry.listed_eq_nil.1 hnil)) ?_
        rintro root hroot
        refine Yields.bind (Pool.vacateRun_yields hc hms) ?_
        rintro ⟨count, p'⟩ ⟨rfl, hc', hlive, hnone, hoff⟩
        rw [hcut]
        refine Yields.pure ⟨xs, ms, ys, hp, rfl, ⟨hroot.regular, ?_, ?_, ?_⟩, hlive, hrest ▸ hc', hnone, hoff⟩
        · rw [hroot.segment, h.path]
        · rw [hroot.listing, Entry.listed_append]
        · dsimp only
          rw [h.size, hes, List.length_append, List.length_append, Count.less_of_le (by omega), List.length_append]
          omega

end OrderedStore.Trie
