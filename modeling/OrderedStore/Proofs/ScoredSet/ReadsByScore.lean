import Mathlib.Tactic
import OrderedStore.Proofs.ScoredSet.AuditEnds
import OrderedStore.Proofs.ScoredSet.NoIssues
import OrderedStore.Proofs.ScoredSet.Window

/-!
# What is read by score from a set without issues

Reads in score order follow the chain, find their way through the map of buckets, and never ask the map by member. If
neither the set nor its map of buckets has issues, all of them show the same rows: the members of the map by member,
each with a score that is the same number there.

An audit of the set alone does not promise that. It meets a bucket by its leaf and the links between the leaves, and
so misses a map of buckets that counts them wrong, finds none of them by its key, or ends elsewhere than at the last.
-/

namespace OrderedStore

variable {V : Type}

/-- By score key, then by member. -/
def Scored.KeyBefore (a b : Bytes × Scored V) : Prop :=
  ∃ k l, ScoreKey.ofScore a.2.score = .ok k ∧ ScoreKey.ofScore b.2.score = .ok l ∧
    (k.word < l.word ∨ k = l ∧ a.1 < b.1)

/-- The score key that a row is kept under. -/
def Scored.keyOf (row : Bytes × Scored V) : ScoreKey := .ofNumber row.2.score

theorem Tier.Fair.key_eq {s : Tier V} (hs : s.Fair) {e : Entry (Scored V)} (he : e ∈ s.run) :
    Scored.keyOf e.item = s.key := (ScoreKey.ofScore_eq_ok_iff.1 (hs.scored e he)).2

namespace ScoredSet

open Tier

/-- The rows are what is read by score, and they are the members of the finite map. -/
structure ReadsByScore (z : ScoredSet V) (s : FiniteMap (Scored V)) (rows : List (Bytes × Scored V)) : Prop where
  /-- The walk lists the rows, and their reverse from its other end. -/
  walked : List.map Leaf.item <$> (z.walk >>= Walk.toList) = .ok rows ∧
    List.map Leaf.item <$> (z.walk >>= fun w => w.reverse.toList) = .ok rows.reverse ∧
    Option.map Leaf.item <$> z.first? = .ok rows.head? ∧ Option.map Leaf.item <$> z.last? = .ok rows.getLast?
  ordered : rows.Pairwise Scored.KeyBefore
  /-- Every member has one row. -/
  once : (rows.map Prod.fst).Nodup
  members : ∀ member, member ∈ rows.map Prod.fst ↔ member ∈ s.keys
  /-- A score may be the other zero than in the map by member. -/
  agreed : ∀ row ∈ rows, ∃ a, s.value row.1 = some a ∧ a.score.same row.2.score = true
  bucketCount : z.bucketCount = (rows.map Scored.keyOf).toFinset.card
  /-- The bucket of a score is found, and its ends are those of the rows with that score. -/
  found : ∀ row ∈ rows, ∃ bucket, z.buckets.get? (Scored.keyOf row).toBytes = .ok (some bucket) ∧
    List.map Leaf.item <$> (z.walkBetween bucket.first bucket.last).toList =
      .ok (rows.filter fun other => Scored.keyOf other = Scored.keyOf row)
  range : ∀ min max opts, z.rangeBetween min max opts = .ok (opts.select (rows.filter (ScoreBound.admits min max)))

variable {z : ScoredSet V} {tiers L R : List (Tier V)} {t : Tier V} {s : FiniteMap (Scored V)}

/-- No two tiers have the same key. -/
theorem Shelved.keys_nodup (h : z.Shelved tiers) : (tiers.map Tier.key).Nodup := by
  refine List.pairwise_map.2 (List.Pairwise.imp_of_mem ?_ h.ascending)
  intro t t' ht ht' hlt heq
  rw [(h.fair t ht).label, (h.fair t' ht').label, heq] at hlt
  exact List.lt_irrefl _ hlt

/-- The score keys of the stock are those of the tiers. -/
theorem Shelved.keys_eq (h : z.Shelved tiers) :
    (((stock tiers).map Entry.item).map Scored.keyOf).toFinset = (tiers.map Tier.key).toFinset := by
  ext key
  rw [List.mem_toFinset, List.mem_toFinset, List.map_map, List.mem_map, List.mem_map]
  constructor
  · intro hkey
    obtain ⟨e, he, rfl⟩ := hkey
    obtain ⟨t, ht, hrun⟩ := mem_stock.1 he
    exact ⟨t, ht, ((h.fair t ht).key_eq hrun).symm⟩
  · intro hkey
    obtain ⟨t, ht, rfl⟩ := hkey
    obtain ⟨e, he⟩ := (h.fair t ht).exists_mem
    exact ⟨e, mem_stock.2 ⟨t, ht, he⟩, (h.fair t ht).key_eq he⟩

/-- The members of a tier are those of the stock with its score key. -/
theorem Shelved.run_eq (h : z.Shelved (L ++ t :: R)) :
    (stock (L ++ t :: R)).filter (fun e => Scored.keyOf e.item = t.key) = t.run := by
  have hnd := h.keys_nodup
  rw [List.map_append, List.map_cons, List.nodup_middle, List.nodup_cons] at hnd
  -- a member elsewhere has the key of its own tier
  have helsewhere : ∀ tiers : List (Tier V), (∀ t' ∈ tiers, t' ∈ L ++ R) →
      (stock tiers).filter (fun e => Scored.keyOf e.item = t.key) = [] := by
    intro tiers htiers
    refine List.filter_eq_nil_iff.2 fun e he hkey => hnd.1 ?_
    obtain ⟨t', ht', hrun⟩ := mem_stock.1 he
    have hmem : t' ∈ L ++ t :: R := List.perm_middle.mem_iff.2 (List.mem_cons_of_mem t (htiers t' ht'))
    rw [← List.map_append, ← of_decide_eq_true hkey, (h.fair t' hmem).key_eq hrun]
    exact List.mem_map_of_mem (htiers t' ht')
  rw [stock_mid, List.filter_append, List.filter_append, helsewhere L fun _ => List.mem_append_left R,
    helsewhere R fun _ => List.mem_append_right L, List.nil_append, List.append_nil]
  exact List.filter_eq_self.2 fun e he => decide_eq_true ((h.fair t (by simp)).key_eq he)

/-- **The bucket of every member's score is found**, and its ends are those of the members with that score. -/
theorem Clear.found (h : z.Clear tiers) {e : Entry (Scored V)} (he : e ∈ stock tiers) :
    ∃ bucket, z.buckets.get? (Scored.keyOf e.item).toBytes = .ok (some bucket) ∧
      List.map Leaf.item <$> (z.walkBetween bucket.first bucket.last).toList =
        .ok (((stock tiers).map Entry.item).filter fun other => Scored.keyOf other = Scored.keyOf e.item) := by
  obtain ⟨t, ht, hrun⟩ := mem_stock.1 he
  have hfair := h.fair t ht
  obtain ⟨leaves, hleaves, hitems⟩ := (h.tier_reads ht).toList
  rw [along_false] at hitems
  obtain ⟨L, R, rfl⟩ := List.append_of_mem ht
  rw [hfair.key_eq hrun]
  refine ⟨t.bucket.value, (h.buckets.get?_iff _ _).2 ⟨t.bucket, List.mem_map_of_mem ht, hfair.label, rfl⟩, ?_⟩
  have hrows : ((stock (L ++ t :: R)).map Entry.item).filter (fun other => Scored.keyOf other = t.key) =
      t.run.map Entry.item := by
    rw [List.filter_map]
    exact congrArg (List.map Entry.item) h.run_eq
  rw [hrows, hleaves, ← hitems]
  rfl

/-- What the two copies of a member say is the same number. -/
theorem Clear.agreed (h : z.Clear tiers) (hs : z.byMember.Agrees s) {e : Entry (Scored V)} (he : e ∈ stock tiers) :
    ∃ a, s.value e.key = some a ∧ a.score.same e.value.score = true := by
  obtain ⟨t, ht, hrun⟩ := mem_stock.1 he
  obtain ⟨a, hget, hsame⟩ := (h.clear t ht).agreed e hrun
  rw [hs.get?] at hget
  exact ⟨a, Except.ok.inj hget, hsame⟩

/-- No member is in stock twice: its score keys would both be that of the map by member. -/
theorem Clear.once (h : z.Clear tiers) (hs : z.byMember.Agrees s) :
    (((stock tiers).map Entry.item).map Prod.fst).Nodup := by
  rw [List.map_map]
  refine List.pairwise_map.2 (List.Pairwise.imp_of_mem ?_ h.stock_keyBefore)
  intro e e' he he' hlt hkey
  obtain ⟨a, ha, hsame⟩ := h.agreed hs he
  obtain ⟨a', ha', hsame'⟩ := h.agreed hs he'
  have hmember : e.key = e'.key := hkey
  rw [hmember] at ha
  obtain rfl := Option.some.inj (ha.symm.trans ha')
  obtain ⟨-, -, hrank⟩ := Binary64.same_iff_rank.1 hsame
  obtain ⟨-, -, hrank'⟩ := Binary64.same_iff_rank.1 hsame'
  obtain ⟨k, l, hk, hl, hless⟩ := hlt
  obtain ⟨-, rfl⟩ := ScoreKey.ofScore_eq_ok_iff.1 hk
  obtain ⟨-, rfl⟩ := ScoreKey.ofScore_eq_ok_iff.1 hl
  rw [ScoreKey.ofNumber_eq_iff.2 (hrank.symm.trans hrank'), hmember] at hless
  rcases hless with hword | ⟨-, hname⟩
  · exact UInt64.lt_irrefl _ hword
  · exact List.lt_irrefl _ hname

/-- **The stock is just the members of the map by member**, since there are as many of them. -/
theorem Clear.members (h : z.Clear tiers) (hs : z.byMember.Agrees s) (member : Bytes) :
    member ∈ ((stock tiers).map Entry.item).map Prod.fst ↔ member ∈ s.keys := by
  have hsub : (((stock tiers).map Entry.item).map Prod.fst).toFinset ⊆ s.keys := by
    intro member hmember
    rw [List.mem_toFinset, List.map_map] at hmember
    obtain ⟨e, he, rfl⟩ := List.mem_map.1 hmember
    obtain ⟨a, ha, -⟩ := h.agreed hs he
    exact s.mem_of_value ha
  have hcard : s.keys.card ≤ (((stock tiers).map Entry.item).map Prod.fst).toFinset.card := by
    rw [List.toFinset_card_of_nodup (h.once hs), List.length_map, List.length_map, h.count]
    exact hs.size.ge
  rw [← Finset.eq_of_subset_of_card_le hsub hcard, List.mem_toFinset]

theorem Clear.readsByScore (h : z.Clear tiers) (hs : z.byMember.Agrees s) :
    z.ReadsByScore s ((stock tiers).map Entry.item) where
  walked := h.walked
  ordered := List.pairwise_map.2 h.stock_keyBefore
  once := h.once hs
  members := h.members hs
  agreed := by
    intro row hrow
    obtain ⟨e, he, rfl⟩ := List.mem_map.1 hrow
    exact h.agreed hs he
  bucketCount := by
    unfold bucketCount
    rw [h.buckets.size_eq, h.keys_eq, List.toFinset_card_of_nodup h.keys_nodup, List.length_map, List.length_map]
  found := by
    intro row hrow
    obtain ⟨e, he, rfl⟩ := List.mem_map.1 hrow
    exact h.found he
  range := h.rangeBetween_eq

/-- **What is read by score from a set without issues** is what its map by member holds, however damaged the set may be
otherwise, if its map of buckets has no issues either. -/
theorem readsByScore_of_no_issues (hmembers : z.byMember.leaves.CountsLive) (hbuckets : z.buckets.leaves.CountsLive)
    (hchain : z.chain.CountsLive) (hindex : z.buckets.issues = .ok []) (h : z.issues = .ok []) :
    ∃ s rows, z.byMember.ReadsLike s ∧ z.ReadsByScore s rows := by
  obtain ⟨tiers, hclear⟩ := clear_of_issues hbuckets hchain hindex h
  obtain ⟨es, hshows, hall⟩ := hclear.inMap.exists_shows hmembers
  obtain ⟨s, hs⟩ := FiniteMap.exists_lists hall.ordered
  have hreads := hshows.readsLike hs
  exact ⟨s, _, hreads, hclear.readsByScore hreads.agrees⟩

/-- A set whose chain has lost count of its slots, has a live one on its free list, and tells one zero from the other
where the map by member does not. -/
def misledZeros : ScoredSet Nat :=
  let z := afterAll damageOne bothZeros 40 [.rescore (some ⟨0⟩) (.negate .zero)]
  { z with chain := { z.chain with opened := 0, free := some ⟨0⟩ } }

theorem misledZeros_reads :
    misledZeros.byMember.leaves.CountsLive ∧ misledZeros.buckets.leaves.CountsLive ∧ misledZeros.chain.CountsLive ∧
      misledZeros.buckets.issues = .ok [] ∧ misledZeros.issues = .ok [] ∧
      ∃ s rows, misledZeros.byMember.ReadsLike s ∧ misledZeros.ReadsByScore s rows := by
  have hmembers : misledZeros.byMember.leaves.CountsLive := by decide +kernel
  have hbuckets : misledZeros.buckets.leaves.CountsLive := by decide +kernel
  have hchain : misledZeros.chain.CountsLive := by decide +kernel
  have hindex : misledZeros.buckets.issues = .ok [] := by decide +kernel
  have hissues : misledZeros.issues = .ok [] := by decide +kernel
  exact ⟨hmembers, hbuckets, hchain, hindex, hissues,
    readsByScore_of_no_issues hmembers hbuckets hchain hindex hissues⟩

/-- One member, and a second bucket in the map of buckets that no link leads to. -/
def overlooked : ScoredSet Nat :=
  afterAll damageOne
    (afterAll perform { byMember := OrderedMap.empty (Scored Nat) 0 8, buckets := OrderedMap.empty Trie 1 } 2
      [.insert ⟨0x3ff0000000000000⟩ [97] 1]) 40
    [.insertBucket [255], .inBuckets (.chain (.setNext (some ⟨0⟩) none))]

/-- The audit misses the second bucket, which is empty. The walk by score ends in it, and so lists nothing. -/
theorem overlooked_misread :
    overlooked.byMember.leaves.CountsLive ∧ overlooked.buckets.leaves.CountsLive ∧ overlooked.chain.CountsLive ∧
      overlooked.issues = .ok [] ∧ ¬ ∃ s rows, overlooked.byMember.ReadsLike s ∧ overlooked.ReadsByScore s rows := by
  refine ⟨by decide +kernel, by decide +kernel, by decide +kernel, by decide +kernel, ?_⟩
  intro h
  obtain ⟨s, rows, hmap, hrows⟩ := h
  have hwalk : List.map Leaf.item <$> (overlooked.walk >>= Walk.toList) = .ok [] := by decide +kernel
  have hget : overlooked.byMember.get? [97] = .ok (some ⟨⟨0x3ff0000000000000⟩, 1⟩) := by decide +kernel
  obtain rfl : rows = [] := Except.ok.inj (hrows.walked.1.symm.trans hwalk)
  have hvalue : s.value [97] = some ⟨⟨0x3ff0000000000000⟩, 1⟩ := Except.ok.inj ((hmap.agrees.get? _).symm.trans hget)
  have hmem := (hrows.members [97]).2 (s.mem_of_value hvalue)
  cases hmem

end ScoredSet

end OrderedStore
