import Mathlib.Tactic
import OrderedStore.Proofs.OrderedMap.Versions
import OrderedStore.Proofs.ScoredSet.Audit
import OrderedStore.Proofs.ScoredSet.Refines

/-!
# Every state of a scored set is well formed

A scored set keeps every member twice and runs one chain through tries that do not know each other. This file
says in full what that has to look like: which buckets there are, what each of them has, that the two copies
agree, and what the chain visits and in which order. Every state that calls can lead to from a fresh set looks
like that, and an audit of it finds nothing.
-/

namespace OrderedStore.ScoredSet

open Edit Tier

variable {V : Type}

/-- A bucket of a set, under the key of its scores: a trie that keeps the rules of a trie, is not empty, and has
exactly the members with that key, each with the score and the payload that the map by member gives it. -/
structure BucketWellformed (z : ScoredSet V) (key : ScoreKey) (bucket : Trie) : Prop where
  rootSegment : bucket.root.segment = []
  tidy : ∀ path n, bucket.root.Reaches path n → n.Tidy
  counted : bucket.size = bucket.root.leafCount
  filled : 0 < bucket.size
  /-- Every leaf is live in the common pool and has the member that its path spells. -/
  placed : ∀ path link, bucket.root.LeafAt path link → ∃ leaf, z.chain.get link = .ok leaf ∧ leaf.key = path
  members : ∀ member scored,
    (∃ link leaf, bucket.root.LeafAt member link ∧ z.chain.get link = .ok leaf ∧ leaf.value = scored) ↔
      z.get? member = .ok (some scored) ∧ ScoreKey.ofScore scored.score = .ok key

/-- The chain of a set visits these entries: every member once, each at the leaf that its bucket has for it, in
strict order of score keys and members, from the first leaf of the lowest bucket to the last leaf of the highest. -/
structure Visits (z : ScoredSet V) (es : List (Entry (Scored V))) : Prop where
  strand : z.chain.Strand none es none
  nodup : (es.map Entry.id).Nodup
  ordered : es.Pairwise KeyBefore
  first : ∃ lowest, z.buckets.first? = .ok lowest ∧ Entry.first es = lowest.bind fun leaf => leaf.value.first
  last : ∃ highest, z.buckets.last? = .ok highest ∧ Entry.last es = highest.bind fun leaf => leaf.value.last
  members : ∀ member scored, (∃ e ∈ es, e.key = member ∧ e.value = scored) ↔ z.get? member = .ok (some scored)
  leaves : ∀ e ∈ es, ∃ key bucket, ScoreKey.ofScore e.value.score = .ok key ∧
    z.buckets.get? key.toBytes = .ok (some bucket) ∧ bucket.root.LeafAt e.key (some e.id)

/-- What is always true of a scored set. -/
structure Wellformed (z : ScoredSet V) : Prop where
  byMember : z.byMember.Wellformed
  buckets : z.buckets.Wellformed
  /-- There is a bucket under the bytes of a score key exactly if some member has that key, and under no other
  bytes. -/
  used : ∀ bytes, z.buckets.contains bytes = true ↔
    ∃ member scored key, z.get? member = .ok (some scored) ∧ ScoreKey.ofScore scored.score = .ok key ∧
      bytes = key.toBytes
  bucket : ∀ key bucket, z.buckets.get? key.toBytes = .ok (some bucket) → z.BucketWellformed key bucket
  visits : ∃ es, z.Visits es
  /-- Between live leaves, the links back are the inverse of the links on. -/
  inverse : ∀ a b x y, z.chain.leaf? a = some x → z.chain.leaf? b = some y →
    (x.next = some b ↔ y.prev = some a)
  live : z.chain.live = z.card

variable {z : ScoredSet V} {es : List (Entry (Scored V))} {tiers L R : List (Tier V)} {s : Tier V}

/-! ## The two copies -/

/-- A member is in stock with what the map by member gives it. -/
theorem Holds.get?_iff_stock (h : z.Holds es tiers) (member : Bytes) (scored : Scored V) :
    z.get? member = .ok (some scored) ↔ ∃ e ∈ stock tiers, e.key = member ∧ e.value = scored := by
  have hiff := h.same.mem_iff (a := (member, scored))
  rw [List.mem_map, List.mem_map] at hiff
  unfold get?
  rw [h.members.get?_iff]
  simp only [Entry.item, Prod.mk.injEq] at hiff
  exact hiff.symm

theorem Tiered.get?_bucket (h : z.Tiered (L ++ s :: R)) :
    z.buckets.get? s.key.toBytes = .ok (some s.bucket.value) := by
  have hs := h.good s (by simp)
  rw [← hs.label]
  exact h.buckets.get?_old h.partsAt

/-- A bucket that is found is a tier's. -/
theorem Tiered.tier_of_get? (h : z.Tiered tiers) {key : ScoreKey} {bucket : Trie}
    (hget : z.buckets.get? key.toBytes = .ok (some bucket)) :
    ∃ L s R, tiers = L ++ s :: R ∧ s.key = key ∧ s.bucket.value = bucket := by
  obtain ⟨b, hb, hkey, hvalue⟩ := (h.buckets.get?_iff _ _).1 hget
  obtain ⟨s, hs, rfl⟩ := List.mem_map.1 hb
  obtain ⟨L, R, rfl⟩ := List.append_of_mem hs
  exact ⟨L, s, R, rfl, ScoreKey.toBytes_inj.1 ((h.good s hs).label.symm.trans hkey), hvalue⟩

/-- Members with one key are on one tier. -/
theorem Tiered.mem_run (h : z.Tiered (L ++ s :: R)) {e : Entry (Scored V)} (he : e ∈ stock (L ++ s :: R))
    (hkey : ScoreKey.ofScore e.value.score = .ok s.key) : e ∈ s.run := by
  obtain ⟨s', hs', hrun⟩ := mem_stock.1 he
  have hgood := h.good s (by simp)
  have hgood' := h.good s' hs'
  have hsame : s'.key = s.key := Except.ok.inj ((hgood'.scored e hrun).symm.trans hkey)
  -- a tier before or after this one has another key
  have hasc := h.shows.ascending
  rw [List.pairwise_append, List.pairwise_cons] at hasc
  have hlabel : s'.bucket.key = s.bucket.key := by rw [hgood'.label, hgood.label, hsame]
  rcases List.mem_append.1 hs' with hL | hR
  · exact absurd (hlabel ▸ hasc.2.2 s' hL s List.mem_cons_self) (List.lt_irrefl _)
  · rcases List.mem_cons.1 hR with rfl | hR
    · exact hrun
    · exact absurd (hlabel ▸ hasc.2.1.1 s' hR) (List.lt_irrefl _)

/-! ## Buckets and chain -/

theorem Holds.bucketWellformed (h : z.Holds es (L ++ s :: R)) : z.BucketWellformed s.key s.bucket.value := by
  have hs := h.tiered.good s (by simp)
  have hget : ∀ e ∈ s.run, ∃ leaf, z.chain.get (some e.id) = .ok leaf ∧ leaf.key = e.key ∧ leaf.value = e.value := by
    intro e he
    have hc := h.tiered.chained
    obtain ⟨xs, ys, hall⟩ := List.append_of_mem (mem_stock.2 ⟨s, by simp, he⟩ : e ∈ stock (L ++ s :: R))
    rw [hall] at hc
    exact ⟨_, Pool.get_ok (Pool.leaf?_of_mem hc), rfl, rfl⟩
  refine ⟨hs.holds.path, fun _ _ hr => (hs.holds.regular.reaches hr).tidy, ?_, ?_, ?_, ?_⟩
  · rw [Node.leafCount_eq, hs.holds.listing, hs.holds.size, Entry.listed, List.length_map]
  · rw [hs.holds.size]
    exact List.length_pos_of_ne_nil hs.filled
  · intro path link hleaf
    obtain ⟨e, he, rfl, rfl⟩ := (hs.holds.leafAt_iff path link).1 hleaf
    obtain ⟨leaf, hleaf', hkey, -⟩ := hget e he
    exact ⟨leaf, hleaf', hkey⟩
  · intro member scored
    rw [h.get?_iff_stock]
    constructor
    · intro hmember
      obtain ⟨link, leaf, hleaf, hlink, hvalue⟩ := hmember
      obtain ⟨e, he, rfl, rfl⟩ := (hs.holds.leafAt_iff member link).1 hleaf
      obtain ⟨leaf', hleaf', -, hvalue'⟩ := hget e he
      obtain rfl : leaf' = leaf := Except.ok.inj (hleaf'.symm.trans hlink)
      have heq : e.value = scored := hvalue'.symm.trans hvalue
      exact ⟨⟨e, mem_stock.2 ⟨s, by simp, he⟩, rfl, heq⟩, heq ▸ hs.scored e he⟩
    · intro hmember
      obtain ⟨⟨e, he, hkey, hvalue⟩, hscore⟩ := hmember
      have hrun := h.tiered.mem_run he (hvalue ▸ hscore)
      obtain ⟨leaf, hleaf, -, hvalue'⟩ := hget e hrun
      exact ⟨some e.id, leaf, (hs.holds.leafAt_iff _ _).2 ⟨e, hrun, hkey, rfl⟩, hleaf, hvalue'.trans hvalue⟩

/-- **The chain visits the stock.** -/
theorem Holds.visits (h : z.Holds es tiers) : z.Visits (stock tiers) where
  strand := h.tiered.chained.strand
  nodup := h.tiered.chained.nodup
  ordered := h.tiered.shows.stock_keyBefore
  first := by
    obtain ⟨lowest, hlowest, hitem, -⟩ := h.tiered.buckets.first?_eq
    refine ⟨lowest, hlowest, ?_⟩
    have hvalue := congrArg (fun o => o.bind fun i : Bytes × Trie => i.2.first) hitem
    rw [List.head?_map, Option.map_map, Option.bind_map, Option.bind_map] at hvalue
    rw [first_stock h.tiered.shows.fair]
    exact hvalue.symm
  last := by
    obtain ⟨highest, hhighest, hitem, -⟩ := h.tiered.buckets.last?_eq
    refine ⟨highest, hhighest, ?_⟩
    have hvalue := congrArg (fun o => o.bind fun i : Bytes × Trie => i.2.last) hitem
    rw [List.getLast?_map, Option.map_map, Option.bind_map, Option.bind_map] at hvalue
    rw [last_stock h.tiered.shows.fair]
    exact hvalue.symm
  members := fun member scored => (h.get?_iff_stock member scored).symm
  leaves := by
    intro e he
    obtain ⟨s, hs, hrun⟩ := mem_stock.1 he
    have hgood := h.tiered.good s hs
    obtain ⟨L, R, rfl⟩ := List.append_of_mem hs
    exact ⟨s.key, s.bucket.value, hgood.scored e hrun, h.tiered.get?_bucket,
      (hgood.holds.leafAt_iff _ _).2 ⟨e, hrun, rfl, rfl⟩⟩

theorem Holds.used_iff (h : z.Holds es tiers) (bytes : Bytes) :
    z.buckets.contains bytes = true ↔
      ∃ member scored key, z.get? member = .ok (some scored) ∧ ScoreKey.ofScore scored.score = .ok key ∧
        bytes = key.toBytes := by
  rw [h.tiered.buckets.contains_iff]
  constructor
  · intro hbucket
    obtain ⟨b, hb, rfl⟩ := hbucket
    obtain ⟨s, hs, rfl⟩ := List.mem_map.1 hb
    have hgood := h.tiered.good s hs
    -- a tier has some member, whose key it has
    obtain ⟨e, he⟩ := hgood.fair.exists_mem
    have hget := (h.get?_iff_stock e.key e.value).2 ⟨e, mem_stock.2 ⟨s, hs, he⟩, rfl, rfl⟩
    exact ⟨e.key, e.value, s.key, hget, hgood.scored e he, hgood.label⟩
  · intro hmember
    obtain ⟨member, scored, key, hget, hscore, rfl⟩ := hmember
    obtain ⟨e, he, -, rfl⟩ := (h.get?_iff_stock member scored).1 hget
    obtain ⟨s, hs, hrun⟩ := mem_stock.1 he
    have hgood := h.tiered.good s hs
    have hkey : s.key = key := Except.ok.inj ((hgood.scored e hrun).symm.trans hscore)
    exact ⟨s.bucket, List.mem_map_of_mem hs, hkey ▸ hgood.label⟩

/-- **A scored set that holds entries is well formed.** -/
theorem Holds.wellformed (h : z.Holds es tiers) : z.Wellformed where
  byMember := h.members.wellformed
  buckets := h.tiered.buckets.wellformed
  used := h.used_iff
  bucket := by
    intro key bucket hget
    obtain ⟨L, s, R, rfl, rfl, rfl⟩ := h.tiered.tier_of_get? hget
    exact h.bucketWellformed
  visits := ⟨stock tiers, h.visits⟩
  inverse := by
    intro a b x y hx hy
    -- the pool counts as many leaves as are in stock, so it has no others
    have ha := h.tiered.chained.mem_of_live h.tiered.live (by rw [hx]; rfl)
    have hb := h.tiered.chained.mem_of_live h.tiered.live (by rw [hy]; rfl)
    exact h.tiered.chained.next_iff_prev ha hb hx hy
  live := h.tiered.live.trans h.card_eq.symm

end ScoredSet

/-! ## Runs -/

namespace FiniteMap

variable {V : Type} {limit : Nat} {s : FiniteMap (Scored V)}

theorem put_exhausted {score : Binary64} {member : Bytes} {payload : V} :
    ExhaustedOnly (Pool.slotLimit ≤ s.card) (s.put score member payload) := by
  unfold put
  split
  · rename_i hfull
    exact ExhaustedOnly.error hfull.2
  · exact ExhaustedOnly.ok

theorem putAll_faultsOnly {items : List (ScoredSet.Item V)} : FaultsOnly (· = .poolExhausted) (s.putAll items) := by
  induction items generalizing s with
  | nil => exact FaultsOnly.ok
  | cons item items ih =>
      obtain ⟨score, member, payload⟩ := item
      rw [putAll]
      refine FaultsOnly.bind put_exhausted.faultsOnly ?_
      intro result
      exact FaultsOnly.bind ih fun _ => FaultsOnly.ok

/-- Only a pool without room makes a finite map of scored members fault. -/
theorem answerScored_faultsOnly {call : ScoredSet.Call V} :
    FaultsOnly (· = .poolExhausted) (s.answerScored limit call) := by
  cases call with
  | insert score member payload =>
      rw [answerScored]
      split
      · exact FaultsOnly.ok
      · exact FaultsOnly.bind put_exhausted.faultsOnly fun _ => FaultsOnly.ok
  | insertAll items =>
      rw [answerScored]
      split
      · exact FaultsOnly.ok
      · exact FaultsOnly.bind putAll_faultsOnly fun _ => FaultsOnly.ok
  | erase member => exact FaultsOnly.ok
  | eraseAll members => exact FaultsOnly.ok

end FiniteMap

namespace ScoredSet

open Edit

variable {V : Type}

/-- The states of a set, from a fresh one on, each after one call more. -/
def states (V : Type) (limit : Nat) (calls : List (Call V)) : Edit (List (ScoredSet V)) := do
  let z ← empty V limit
  let steps ← performAll perform z calls
  return z :: steps.map Prod.snd

/-- **Every state of a scored set is well formed and passes its audit**, for every limit and every run of calls
on a fresh set. The only fault on the way is a pool without room. -/
theorem states_wellformed (limit : Nat) (now : Stamp) (calls : List (Call V)) :
    match (states V limit calls).run now with
    | .ok (zs, _) => ∀ z ∈ zs, z.Wellformed ∧ z.issues = .ok []
    | .error fault => fault = .poolExhausted := by
  obtain ⟨z, next, hempty, hlimit, hz⟩ := empty_yields (V := V) limit now
  have hends := ends_of_meets (fun s call => FiniteMap.answerScored_faultsOnly)
    (fun _ _ call h => Represents.meets h call) ⟨hlimit, [], [], hz, FiniteMap.lists_empty⟩ calls next
  unfold states
  rw [run_bind_ok hempty]
  cases hrun : (performAll perform z calls).run next with
  | error fault =>
      rw [hrun] at hends
      rw [run_bind_error hrun]
      exact hends
  | ok result =>
      rw [hrun] at hends
      rw [run_bind_ok hrun]
      intro z' hz'
      rcases List.mem_cons.1 hz' with rfl | hz'
      · exact ⟨hz.wellformed, hz.issues_eq⟩
      · -- every later state has some members in it, the same ones in both copies
        obtain ⟨step, hstep, rfl⟩ := List.mem_map.1 hz'
        obtain ⟨s, -, es, tiers, hheld, -⟩ := hends step hstep
        exact ⟨hheld.wellformed, hheld.issues_eq⟩

end OrderedStore.ScoredSet
