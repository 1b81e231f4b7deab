import Mathlib.Tactic
import OrderedStore.Proofs.Trie.Write

/-!
# Tries that share a pool

Any number of tries may keep their leaves in one pool, with all the leaves on one chain: the run of one trie, then the
run of another. A trie knows nothing of its neighbours. It links a new leaf in next to its own nearest leaf and ties
together whatever lies on either side of leaves that go, so the links it follows may lead into another trie.

The statements below say that this is enough. Whatever one trie does, its run on the chain gives way to its new run,
and everything that belongs to the others stays where it is. Nothing is asked of the keys: those of different tries may
overlap, and only along one run do they ascend.
-/

namespace OrderedStore

open Edit
open Entry (PartsAt)

variable {V : Type}

/-- A trie and the entries it holds, among tries that share a pool. -/
structure Tenant (V : Type) where
  trie : Trie
  run : List (Entry V)

namespace Tenant

/-- The runs of some tenants, one after the other. -/
def entries (tenants : List (Tenant V)) : List (Entry V) := tenants.flatMap run

variable {before after : List (Tenant V)} {t : Tenant V}

theorem entries_append (before after : List (Tenant V)) :
    entries (before ++ after) = entries before ++ entries after := List.flatMap_append

/-- The run of one tenant, between the runs before it and those after it. -/
theorem entries_mid (before : List (Tenant V)) (t : Tenant V) (after : List (Tenant V)) :
    entries (before ++ t :: after) = entries before ++ t.run ++ entries after := by
  rw [entries_append, List.append_assoc]
  rfl

end Tenant

open Tenant (entries)

/-- The pool is shared by these tries: each holds its run, and their runs are one chain. -/
structure Pool.Houses (p : Pool V) (tenants : List (Tenant V)) : Prop where
  holds : ∀ t ∈ tenants, t.trie.Holds t.run
  chained : p.Chained (entries tenants)

/-- One tenant has become another one, and nothing else has changed. -/
structure Pool.Rehouses (p p' : Pool V) (before : List (Tenant V)) (t t' : Tenant V) (after : List (Tenant V)) :
    Prop where
  /-- The new run is on the chain in place of the old one. -/
  houses : p'.Houses (before ++ t' :: after)
  ordered : Entry.Ordered t'.run
  /-- Along the chain, the links back are the inverse of the links on. -/
  inverse : ∀ a ∈ entries (before ++ t' :: after), ∀ b ∈ entries (before ++ t' :: after), ∀ x y,
    p'.leaf? a.id = some x → p'.leaf? b.id = some y → (x.next = some b.id ↔ y.prev = some a.id)
  /-- The leaves that left the run are free. -/
  freed : ∀ e ∈ t.run, e.id ∉ t'.run.map Entry.id → p'.leaf? e.id = none
  /-- A leaf that is on neither chain stays as it is. -/
  elsewhere : ∀ id, id ∉ (entries (before ++ t :: after)).map Entry.id →
    id ∉ (entries (before ++ t' :: after)).map Entry.id → p'.leaf? id = p.leaf? id

namespace Pool.Houses

variable {p p' : Pool V} {before after : List (Tenant V)} {t : Tenant V} {trie : Trie} {run xs ys : List (Entry V)}
  {e : Entry V} {key : Bytes} {value : V}

/-- Each tenant holds its run. -/
theorem tenant (h : p.Houses (before ++ t :: after)) : t.trie.Holds t.run := h.holds t (by simp)

/-- The chain, cut at both ends of the run of a tenant. -/
theorem chained_mid (h : p.Houses (before ++ t :: after)) :
    p.Chained (entries before ++ t.run ++ entries after) := by
  have hc := h.chained
  rwa [Tenant.entries_mid] at hc

/-- The other tenants hold what they held. -/
theorem others (h : p.Houses (before ++ t :: after)) : ∀ s ∈ before ++ after, s.trie.Holds s.run := by
  intro s hs
  refine h.holds s ?_
  rw [List.perm_middle.mem_iff]
  exact List.mem_cons_of_mem _ hs

/-- A tenant that holds another run, which is on the chain in place of the old one. -/
theorem rehouses (h : p.Houses (before ++ t :: after)) (ht : trie.Holds run)
    (hc : p'.Chained (entries before ++ run ++ entries after))
    (hfreed : ∀ e ∈ t.run, e.id ∉ run.map Entry.id → p'.leaf? e.id = none)
    (hoff : ∀ id, id ∉ (entries before ++ t.run ++ entries after).map Entry.id →
      id ∉ (entries before ++ run ++ entries after).map Entry.id → p'.leaf? id = p.leaf? id) :
    p.Rehouses p' before t ⟨trie, run⟩ after := by
  have hchain : p'.Chained (entries (before ++ ⟨trie, run⟩ :: after)) := by
    rw [Tenant.entries_mid]
    exact hc
  refine ⟨⟨?_, hchain⟩, ht.ordered, ?_, hfreed, ?_⟩
  · intro s hs
    rw [List.perm_middle.mem_iff, List.mem_cons] at hs
    rcases hs with rfl | hs
    · exact ht
    · exact h.others s hs
  · intro a ha b hb x y hx hy
    exact hchain.next_iff_prev (List.mem_map_of_mem ha) (List.mem_map_of_mem hb) hx hy
  · rw [Tenant.entries_mid, Tenant.entries_mid]
    exact hoff

/-- A key that no entry of the run has goes in between the entries below it and those above it. -/
theorem partsAt_new (h : p.Houses (before ++ t :: after)) (hnew : ∀ e ∈ t.run, e.key ≠ key) :
    ∃ xs ys, PartsAt key t.run xs [] ys := by
  rcases h.tenant.ordered.present_or_absent key with ⟨xs, e, ys, hkey, hp⟩ | habsent
  · refine absurd hkey (hnew e ?_)
    rw [hp.present_eq]
    simp
  · exact habsent

theorem partsAt_old (h : p.Houses (before ++ t :: after)) (hrun : t.run = xs ++ e :: ys) :
    PartsAt e.key t.run xs [e] ys := by
  have hordered := h.tenant.ordered
  rw [hrun] at hordered ⊢
  exact hordered.partsAt_mem

/-! ## One write -/

/-- **A new key in a trie that has keys** gets a leaf at its place in the run, and so on the chain. -/
theorem insert_new (h : p.Houses (before ++ t :: after)) (hnew : ∀ e ∈ t.run, e.key ≠ key) (hrun : t.run ≠ [])
    (hroom : p.live < Pool.slotLimit) :
    (t.trie.insert p key value).Yields fun (old, trie, p') =>
      old = none ∧ ∃ xs e ys, t.run = xs ++ ys ∧ e.key = key ∧ e.value = value ∧
        p.leaf? e.id = none ∧ p.Rehouses p' before t ⟨trie, xs ++ e :: ys⟩ after := by
  obtain ⟨xs, ys, hp⟩ := h.partsAt_new hnew
  refine (h.tenant.insert_new h.chained_mid hp hroom).mono ?_
  rintro ⟨old, trie, p'⟩ ⟨rfl, e, hkey, hvalue, htrie, -, -, hchain, -, hoff, hvacant⟩
  have hparts := hp.absent_eq
  refine ⟨rfl, xs, e, ys, hparts, hkey, hvalue, hvacant, h.rehouses htrie (hchain hrun) ?_ fun id _ => hoff id⟩
  intro x hx hout
  -- no entry leaves the run
  refine absurd (List.mem_map_of_mem ?_) hout
  rw [hparts, List.mem_append] at hx
  rw [List.perm_middle.mem_iff, List.mem_cons, List.mem_append]
  exact Or.inr hx

/-- **A new key in an empty trie** gets a leaf that is linked with nothing, and no other leaf changes. -/
theorem insert_first (h : p.Houses (before ++ t :: after)) (hrun : t.run = []) (hroom : p.live < Pool.slotLimit) :
    (t.trie.insert p key value).Yields fun (old, trie, p') =>
      old = none ∧ ∃ e : Entry V, e.key = key ∧ e.value = value ∧ trie.Holds [e] ∧ p'.Houses (before ++ after) ∧
        p.leaf? e.id = none ∧ p'.leaf? e.id = some ⟨key, value, none, none⟩ ∧
        ∀ id, id ≠ e.id → p'.leaf? id = p.leaf? id := by
  have hp : PartsAt key t.run [] [] [] := by
    rw [hrun]
    exact Entry.partsAt_nil
  have hc := h.chained_mid
  rw [hrun, List.append_nil] at hc
  refine (h.tenant.insert_new h.chained_mid hp hroom).mono ?_
  rintro ⟨old, trie, p'⟩ ⟨rfl, e, rfl, rfl, htrie, -, -, -, hlone, hoff, hvacant⟩
  obtain ⟨hc', halone⟩ := hlone hrun
  refine ⟨rfl, e, rfl, rfl, htrie, ⟨h.others, ?_⟩, hvacant, alone_iff.1 halone, fun id hid => ?_⟩
  · rw [Tenant.entries_append]
    exact hc'
  · -- the chain is the old one, so its leaves are the old ones too
    by_cases hmem : id ∈ (entries before ++ entries after).map Entry.id
    · exact hc.leaf?_eq hc' hmem
    · refine hoff id ?_
      simp only [List.map_append, List.mem_append, not_or] at hmem ⊢
      exact ⟨⟨hmem.1, by simpa using hid⟩, hmem.2⟩

/-- A new key finds no room in a full pool. -/
theorem insert_faults (h : p.Houses (before ++ t :: after)) (hnew : ∀ e ∈ t.run, e.key ≠ key)
    (hfull : Pool.slotLimit ≤ p.live) : (t.trie.insert p key value).Faults .poolExhausted := by
  obtain ⟨xs, ys, hp⟩ := h.partsAt_new hnew
  exact h.tenant.insert_faults h.chained_mid hp hfull

/-- **A key that is there** gets the new value in its leaf, and no link changes. -/
theorem insert_old (h : p.Houses (before ++ t :: after)) (hrun : t.run = xs ++ e :: ys) :
    (t.trie.insert p e.key value).Yields fun (old, trie, p') =>
      old = some e.value ∧ p.Rehouses p' before t ⟨trie, xs ++ { e with value } :: ys⟩ after ∧
        ∀ id, p'.leaf? id = (p.leaf? id).map fun leaf => if id = e.id then { leaf with value } else leaf := by
  have hp := h.partsAt_old hrun
  have hc := h.chained_mid
  refine Yields.mono (h.tenant.insert_old hc hp) ?_
  rintro ⟨old, trie, p'⟩ ⟨rfl, htrie, -, hc', hoff⟩
  refine ⟨rfl, h.rehouses htrie hc' ?_ ?_, fun id => ?_⟩
  · intro x hx hout
    refine absurd ?_ hout
    rw [hrun] at hx
    simpa using List.mem_map_of_mem (f := Entry.id) hx
  · intro id hold _
    refine hoff id fun hid => hold ?_
    rw [List.mem_singleton.1 hid, hrun]
    simp
  · by_cases hid : id = e.id
    · -- the entry has the same neighbours on the chain before and after
      subst hid
      rw [hrun, ← List.append_assoc, List.append_assoc _ _ (entries after), List.cons_append] at hc
      rw [← List.append_assoc, List.append_assoc _ _ (entries after), List.cons_append] at hc'
      have hnew := leaf?_of_mem hc'
      dsimp only at hnew
      rw [hnew, leaf?_of_mem hc, Option.map_some, if_pos rfl]
    · rw [hoff id (by simpa using hid)]
      simp [hid]

/-- **Removing a key** takes its entry out of the run and frees its leaf. -/
theorem erase_old (h : p.Houses (before ++ t :: after)) (hrun : t.run = xs ++ e :: ys) :
    (t.trie.erase p e.key).Yields fun (old, trie, p') =>
      old = some e.value ∧ p.Rehouses p' before t ⟨trie, xs ++ ys⟩ after := by
  refine (h.tenant.erase_old h.chained_mid (h.partsAt_old hrun)).mono ?_
  rintro ⟨old, trie, p'⟩ ⟨rfl, htrie, -, hc', hnone, hoff⟩
  refine ⟨rfl, h.rehouses htrie hc' ?_ fun id hold _ => hoff id hold⟩
  intro x hx hout
  rw [hrun, List.perm_middle.mem_iff, List.mem_cons] at hx
  rcases hx with rfl | hx
  · exact hnone
  · exact absurd (List.mem_map_of_mem hx) hout

/-- Removing a key that is not there changes nothing. -/
theorem erase_absent (h : p.Houses (before ++ t :: after)) (hnew : ∀ e ∈ t.run, e.key ≠ key) :
    t.trie.erase p key = pure (none, t.trie, p) := by
  obtain ⟨xs, ys, hp⟩ := h.partsAt_new hnew
  exact h.tenant.erase_absent hp

/-- **Removing all keys that start with some bytes** leaves the others on the run, and frees the leaves that go. -/
theorem eraseUnder (h : p.Houses (before ++ t :: after)) (start : Bytes) :
    (t.trie.eraseUnder p start).Yields fun (count, trie, p') =>
      count = (t.run.filter fun e => start <+: e.key).length ∧
        p.Rehouses p' before t ⟨trie, t.run.filter fun e => ¬ start <+: e.key⟩ after := by
  refine (h.tenant.eraseUnder_yields h.chained_mid start).mono ?_
  rintro ⟨count, trie, p'⟩ ⟨xs, ms, ys, hp, rfl, htrie, -, hc', hnone, hoff⟩
  rw [hp.rest_eq] at htrie hc'
  refine ⟨by rw [← hp.within_eq], h.rehouses htrie hc' ?_ fun id hold _ => hoff id hold⟩
  intro x hx hout
  -- an entry that does not stay is one of those that go
  refine hnone x.id (List.mem_map_of_mem ?_)
  rw [hp.within_eq, List.mem_filter]
  refine ⟨hx, ?_⟩
  by_contra hstays
  refine hout (List.mem_map_of_mem (List.mem_filter.2 ⟨hx, ?_⟩))
  simpa using hstays

end Pool.Houses

/-- What the writes of a tenant do, whatever key or beginning of keys they are given. -/
structure Tenant.KeepsChain (p : Pool V) (before : List (Tenant V)) (t : Tenant V) (after : List (Tenant V)) :
    Prop where
  /-- A new key has its entry put into the run, under a slot that led nowhere. -/
  insert_new : ∀ key value, (∀ e ∈ t.run, e.key ≠ key) → t.run ≠ [] → p.live < Pool.slotLimit →
    (t.trie.insert p key value).Yields fun (old, trie, p') =>
      old = none ∧ ∃ xs e ys, t.run = xs ++ ys ∧ e.key = key ∧ e.value = value ∧ p.leaf? e.id = none ∧
        p.Rehouses p' before t ⟨trie, xs ++ e :: ys⟩ after
  /-- In an empty trie it has a leaf without neighbours, beside the chain as it was. -/
  insert_first : ∀ key value, t.run = [] → p.live < Pool.slotLimit →
    (t.trie.insert p key value).Yields fun (old, trie, p') =>
      old = none ∧ ∃ e : Entry V, e.key = key ∧ e.value = value ∧ trie.Holds [e] ∧ p'.Houses (before ++ after) ∧
        p.leaf? e.id = none ∧ p'.leaf? e.id = some ⟨key, value, none, none⟩ ∧
        ∀ id, id ≠ e.id → p'.leaf? id = p.leaf? id
  /-- Without a slot for it, it is refused. -/
  insert_full : ∀ key value, (∀ e ∈ t.run, e.key ≠ key) → Pool.slotLimit ≤ p.live →
    (t.trie.insert p key value).Faults .poolExhausted
  /-- A value is replaced in its leaf, and every link stays. -/
  insert_old : ∀ xs e ys value, t.run = xs ++ e :: ys →
    (t.trie.insert p e.key value).Yields fun (old, trie, p') =>
      old = some e.value ∧ p.Rehouses p' before t ⟨trie, xs ++ { e with value } :: ys⟩ after ∧
        ∀ id, p'.leaf? id = (p.leaf? id).map fun leaf => if id = e.id then { leaf with value } else leaf
  erase_old : ∀ xs e ys, t.run = xs ++ e :: ys →
    (t.trie.erase p e.key).Yields fun (old, trie, p') =>
      old = some e.value ∧ p.Rehouses p' before t ⟨trie, xs ++ ys⟩ after
  erase_absent : ∀ key, (∀ e ∈ t.run, e.key ≠ key) → t.trie.erase p key = pure (none, t.trie, p)
  eraseUnder : ∀ start, (t.trie.eraseUnder p start).Yields fun (count, trie, p') =>
    count = (t.run.filter fun e => start <+: e.key).length ∧
      p.Rehouses p' before t ⟨trie, t.run.filter fun e => ¬ start <+: e.key⟩ after

/-- **Tries that share a pool keep the chain they share**: every write of one of them changes its own run on the chain
and nothing else. -/
theorem Pool.Houses.keeps_chain {p : Pool V} {before after : List (Tenant V)} {t : Tenant V}
    (h : p.Houses (before ++ t :: after)) : t.KeepsChain p before after where
  insert_new _ _ hnew hrun hroom := h.insert_new hnew hrun hroom
  insert_first _ _ hrun hroom := h.insert_first hrun hroom
  insert_full _ _ hnew hfull := h.insert_faults hnew hfull
  insert_old _ _ _ _ hrun := h.insert_old hrun
  erase_old _ _ _ hrun := h.erase_old hrun
  erase_absent _ hnew := h.erase_absent hnew
  eraseUnder start := h.eraseUnder start

/-! ## Two tenants with one key, and one without keys -/

namespace Pool

/-- A pool of two leaves. -/
def ofPair (a b : Leaf V) : Pool V where
  root := some ⟨0, ((Table.empty V 0 0).write ⟨0⟩ (.live a) 0).write ⟨1⟩ (.live b) 0⟩
  opened := 2
  live := 2

theorem slot?_ofPair (a b : Leaf V) {id : LeafId} (h : id.index < Table.room 0) :
    (ofPair a b).slot? id =
      if id = ⟨1⟩ then some (.live b) else if id = ⟨0⟩ then some (.live a) else (Table.empty V 0 0).slot? id := by
  rw [slot?_root rfl, Tower.slot?_of_lt h]
  have hmod : ∀ i, i < 64 → id ≠ ⟨i⟩ → (⟨i⟩ : LeafId).index % Table.room 0 ≠ id.index % Table.room 0 := by
    intro i hi hne heq
    rw [Nat.mod_eq_of_lt h, Nat.mod_eq_of_lt (by simpa [Table.room] using hi)] at heq
    exact hne (by cases id; exact congrArg LeafId.mk heq.symm)
  dsimp only
  split
  · rename_i hone
    rw [hone]
    exact Table.slot?_write_self rfl
  · rename_i hone
    rw [Table.slot?_write_ne (hmod 1 (by decide) hone)]
    split
    · rename_i hzero
      rw [hzero]
      exact Table.slot?_write_self rfl
    · rename_i hzero
      exact Table.slot?_write_ne (hmod 0 (by decide) hzero)

theorem leaf?_ofPair (a b : Leaf V) : (ofPair a b).leaf? ⟨0⟩ = some a ∧ (ofPair a b).leaf? ⟨1⟩ = some b := by
  rw [leaf?_eq_some_iff, leaf?_eq_some_iff, slot?_ofPair a b (by decide), slot?_ofPair a b (by decide)]
  exact ⟨rfl, rfl⟩

theorem sound_ofPair (a b : Leaf V) : (ofPair a b).Sound where
  untouched := by simp [ofPair]
  tower := by
    intro t ht
    rw [ofPair, Option.some.injEq] at ht
    refine ⟨?_, fun id slot hle hs => ?_⟩
    · rw [← ht]
      exact Table.filled_zero.2 (show 2 ≤ Table.room 0 by decide)
    · change 2 ≤ id.index at hle
      have hroom : id.index < Table.room 0 := by
        by_contra hge
        rw [← ht, Tower.slot?_of_le (Nat.not_lt.1 hge)] at hs
        simp at hs
      rw [← slot?_root (p := ofPair a b) (ht ▸ rfl), slot?_ofPair a b hroom,
        if_neg (by rintro rfl; simp at hle), if_neg (by rintro rfl; simp at hle)] at hs
      exact Table.slot?_empty hs
  opened_le := show 2 ≤ slotLimit by decide
  free := by
    refine ⟨[], rfl, List.nodup_nil, fun id => iff_of_false (by simp) ?_, rfl⟩
    rintro ⟨hlt, hnone⟩
    obtain ⟨i⟩ := id
    have hi : i = 0 ∨ i = 1 := by
      change i < 2 at hlt
      omega
    obtain ⟨ha, hb⟩ := leaf?_ofPair a b
    rcases hi with rfl | rfl
    · simp [ha] at hnone
    · simp [hb] at hnone

end Pool

namespace Tenant

/-- A tenant whose only key is the empty one. -/
def single (id : LeafId) (value : V) : Tenant V := ⟨⟨Node.ofLeaf 0 [] (some id), 1⟩, [⟨id, [], value⟩]⟩

/-- A tenant without keys. -/
def vacant : Tenant V := ⟨Trie.empty 0, []⟩

theorem holds_single (id : LeafId) (value : V) : (single id value).trie.Holds (single id value).run where
  regular := Node.ofLeaf_regular 0 [] id
  path := rfl
  listing := by
    rw [Node.listing_eq]
    rfl
  size := rfl

/-- A pool with two tenants that have the same key, and a third one without keys. -/
theorem houses_pair (v w : V) :
    (Pool.ofPair ⟨[], v, none, some ⟨1⟩⟩ ⟨[], w, some ⟨0⟩, none⟩).Houses [single ⟨0⟩ v, single ⟨1⟩ w, vacant] where
  holds := by
    simp only [List.forall_mem_cons]
    exact ⟨holds_single _ _, holds_single _ _, Trie.holds_empty 0, by simp⟩
  chained := by
    refine ⟨Pool.sound_ofPair _ _, ⟨?_, ?_, trivial⟩, by simp [entries, single, vacant]⟩
    · exact (Pool.leaf?_ofPair _ _).1
    · exact (Pool.leaf?_ofPair _ _).2

/-- The second of the two keeps the chain that it shares with the first. -/
theorem pair_keeps_chain :
    (Pool.ofPair ⟨[], 10, none, some ⟨1⟩⟩ ⟨[], 20, some ⟨0⟩, none⟩).Houses
        ([single ⟨0⟩ 10] ++ single ⟨1⟩ 20 :: [vacant]) ∧
      (single ⟨1⟩ 20).KeepsChain (Pool.ofPair ⟨[], 10, none, some ⟨1⟩⟩ ⟨[], 20, some ⟨0⟩, none⟩)
        [single ⟨0⟩ 10] [vacant] := by
  have hpair := houses_pair 10 20
  change Pool.Houses _ ([single ⟨0⟩ 10] ++ single ⟨1⟩ 20 :: [vacant]) at hpair
  exact ⟨hpair, Pool.Houses.keeps_chain hpair⟩

end Tenant

end OrderedStore
