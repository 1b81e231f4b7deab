import Mathlib.Tactic
import OrderedStore.Proofs.OrderedMap.Audit
import OrderedStore.Proofs.ScoredSet.Reads
import OrderedStore.ScoredSet.Audit

/-!
# The audit of a sound scored set

The audit looks at both copies of every member and at the one chain through all buckets. On a set that holds
entries it finds nothing: what a bucket shows is told by its tier, and what the chain shows by the order of the
stock, which is the order of the score keys and then of the members.
-/

namespace OrderedStore.ScoredSet

open Tier

variable {V : Type}

/-- Chain order: by score key, then by member. -/
def KeyBefore (a b : Entry (Scored V)) : Prop :=
  ∃ k l, ScoreKey.ofScore a.value.score = .ok k ∧ ScoreKey.ofScore b.value.score = .ok l ∧
    (k.word < l.word ∨ k = l ∧ a.key < b.key)

variable {z : ScoredSet V} {tiers L R : List (Tier V)} {es : List (Entry (Scored V))} {s : Tier V}

/-- The audit's own comparison is chain order. -/
theorem precedes_eq_true_iff {a b : Leaf (Scored V)} {e e' : Entry (Scored V)} (ha : a.item = e.item)
    (hb : b.item = e'.item) : precedes a b = .ok true ↔ KeyBefore e e' := by
  obtain ⟨hkey, hvalue⟩ := Prod.mk.inj ha
  obtain ⟨hkey', hvalue'⟩ := Prod.mk.inj hb
  unfold precedes KeyBefore
  rw [hkey, hvalue, hkey', hvalue']
  constructor
  · intro h
    obtain ⟨k, hk, hrest⟩ := exists_of_bind_eq_ok h
    obtain ⟨l, hl, hlt⟩ := exists_of_bind_eq_ok hrest
    have hdecided := Except.ok.inj hlt
    rw [Bool.or_eq_true, Bool.and_eq_true, decide_eq_true_iff, decide_eq_true_iff, decide_eq_true_iff] at hdecided
    exact ⟨k, l, hk, hl, hdecided⟩
  · intro h
    obtain ⟨k, l, hk, hl, hlt⟩ := h
    rw [hk, hl]
    show Except.ok (k.word < l.word || (k = l && e.key < e'.key) : Bool) = .ok true
    rw [Except.ok.injEq, Bool.or_eq_true, Bool.and_eq_true, decide_eq_true_iff, decide_eq_true_iff, decide_eq_true_iff]
    exact hlt

/-- **The stock is in the order of the chain.** -/
theorem Shelved.stock_keyBefore (h : z.Shelved tiers) : (stock tiers).Pairwise KeyBefore := by
  rw [stock, List.pairwise_flatMap]
  constructor
  · intro s hs
    have hfair := h.fair s hs
    refine List.Pairwise.imp_of_mem ?_ hfair.ordered
    intro e e' he he' hlt
    exact ⟨s.key, s.key, hfair.scored e he, hfair.scored e' he', Or.inr ⟨rfl, hlt⟩⟩
  · refine List.Pairwise.imp_of_mem ?_ h.ascending
    intro s s' hs hs' hlt e he e' he'
    rw [(h.fair s hs).label, (h.fair s' hs').label, ScoreKey.toBytes_lt_iff] at hlt
    exact ⟨s.key, s'.key, (h.fair s hs).scored e he, (h.fair s' hs').scored e' he', Or.inl hlt⟩

/-! ## Buckets -/

/-- The chain around one tier. -/
theorem Tiered.chained_mid (h : z.Tiered (L ++ s :: R)) : z.chain.Chained (stock L ++ s.run ++ stock R) := by
  have hc := h.chained
  rwa [stock_mid] at hc

/-- A member has no issue just if its score is that of its bucket and the map by member has the same one. -/
theorem memberIssues_eq_nil_iff {key : ScoreKey} {leaf : Leaf (Scored V)} {e : Entry (Scored V)}
    (hleaf : leaf.item = e.item) :
    z.memberIssues key leaf = .ok [] ↔ ScoreKey.ofScore e.value.score = .ok key ∧
      ∃ a, z.byMember.get? e.key = .ok (some a) ∧ a.score.same e.value.score = true := by
  obtain ⟨hkey, hvalue⟩ := Prod.mk.inj hleaf
  unfold memberIssues
  dsimp only
  rw [hkey, hvalue]
  constructor
  · intro h
    obtain ⟨own, hown, hrest⟩ := exists_of_bind_eq_ok h
    obtain ⟨indexed, hget, hall⟩ := exists_of_bind_eq_ok hrest
    have hnil := Except.ok.inj hall
    rw [List.append_eq_nil_iff, ite_eq_nil_iff] at hnil
    obtain ⟨rfl, hagree⟩ := hnil
    cases indexed with
    | none => cases hagree
    | some a => exact ⟨hown, a, hget, ite_eq_nil_iff.1 hagree⟩
  · intro h
    obtain ⟨hscore, a, hget, hsame⟩ := h
    rw [hscore, hget]
    show Except.ok ((if key = key then [] else _) ++ (if a.score.same e.value.score then [] else _)) = _
    rw [if_pos rfl, if_pos hsame]
    rfl

/-- What the two copies of a member say is the same. -/
theorem Holds.memberIssues_eq (h : z.Holds es tiers) (hs : s ∈ tiers) {e : Entry (Scored V)} (he : e ∈ s.run)
    {leaf : Leaf (Scored V)} (hleaf : leaf.item = e.item) : z.memberIssues s.key leaf = .ok [] := by
  have hgood := h.tiered.good s hs
  have hget : z.byMember.get? e.key = .ok (some e.value) := by
    obtain ⟨twin, htwin, hitem⟩ := List.mem_map.1 (h.same.mem_iff.1 (List.mem_map_of_mem (mem_stock.2 ⟨s, hs, he⟩)))
    exact (h.members.get?_iff _ _).2 ⟨twin, htwin, congrArg Prod.fst hitem, congrArg Prod.snd hitem⟩
  have hnumber := hgood.fair.number he
  have hsame : e.value.score.same e.value.score = true := Binary64.same_iff_rank.2 ⟨hnumber, hnumber, rfl⟩
  exact (memberIssues_eq_nil_iff hleaf).2 ⟨hgood.scored e he, e.value, hget, hsame⟩

/-- **No bucket has an issue**, and each counts its run. -/
theorem Holds.bucketIssues_eq (h : z.Holds es tiers) (hs : s ∈ tiers) {leaf : Leaf Trie}
    (hleaf : leaf.item = s.bucket.item) : z.bucketIssues leaf = .ok ([], leaf.value.size) := by
  obtain ⟨hkey, hvalue⟩ := Prod.mk.inj hleaf
  have hgood := h.tiered.good s hs
  have hfilled : ¬ s.bucket.value.isEmpty = true := fun hempty => hgood.filled (hgood.holds.isEmpty_iff.1 hempty)
  have htrie : s.bucket.value.issues z.chain = .ok [] := by
    obtain ⟨L, R, rfl⟩ := List.append_of_mem hs
    exact hgood.holds.issues_eq h.tiered.chained_mid
  -- the walk between the ends of the bucket reads its run
  have hreads := h.tiered.shows.tier_reads hs
  obtain ⟨leaves, htrace, hitems⟩ := hreads.trace hreads.covers.length_lt_fuel
  rw [along_false] at hitems
  have hfound : (z.walkBetween s.bucket.value.first s.bucket.value.last).mapM (z.memberIssues s.key) =
      .ok (leaves.map fun _ => []) := by
    rw [Walk.mapM, htrace]
    refine Trace.mapM_ofList fun x hx => ?_
    obtain ⟨e, he, hitem⟩ := List.mem_map.1 (hitems ▸ List.mem_map_of_mem hx)
    exact h.memberIssues_eq hs he hitem.symm
  have hflat : (leaves.map fun _ => ([] : List Issue)).flatten = [] :=
    List.flatten_eq_nil_iff.2 fun l hl => (List.mem_map.1 hl).elim fun _ h => h.2.symm
  unfold bucketIssues
  rw [hkey, hvalue, hgood.label, ScoreKey.ofBytes?_toBytes]
  dsimp only
  rw [if_neg hfilled, htrie, hfound]
  show Except.ok (([] : List Trie.Issue).map (Issue.inBucket s.key) ++ _, _) = _
  rw [hflat]
  rfl

/-- All buckets are read in order; together they count the stock. -/
theorem Holds.bucketIssues_all (h : z.Holds es tiers) :
    ∃ found, z.buckets.walk.mapM z.bucketIssues = .ok found ∧ (found.map Prod.fst).flatten = [] ∧
      Count.total (found.map Prod.snd) = (stock tiers).length := by
  have hreads := h.tiered.buckets.walk_reads
  obtain ⟨leaves, htrace, hitems⟩ := hreads.trace hreads.covers.length_lt_fuel
  rw [along_false, List.map_map] at hitems
  have hsizes : leaves.map (fun leaf => leaf.value.size) = tiers.map fun s => s.run.length := by
    have hvalues := congrArg (List.map fun i : Bytes × Trie => i.2.size) hitems
    rw [List.map_map, List.map_map] at hvalues
    rw [show (fun leaf : Leaf Trie => leaf.value.size) = (fun i : Bytes × Trie => i.2.size) ∘ Leaf.item from rfl,
      hvalues]
    exact List.map_congr_left fun s hs => (h.tiered.good s hs).holds.size
  have hsum : ((leaves.map fun leaf => leaf.value.size).foldr (· + ·) 0) = (stock tiers).length := by
    rw [hsizes, ← List.sum_eq_foldr, stock, List.length_flatMap]
  -- a pool has fewer slots than a count has values, so the sum does not wrap
  have hbound : (stock tiers).length < Count.bound := by
    have hlive := h.tiered.chained.sound.live_le
    rw [h.tiered.live] at hlive
    unfold Pool.slotLimit at hlive
    unfold Count.bound
    omega
  refine ⟨leaves.map fun leaf => ([], leaf.value.size), ?_, ?_, ?_⟩
  · rw [Walk.mapM, htrace]
    refine Trace.mapM_ofList fun leaf hleaf => ?_
    obtain ⟨s, hs, hitem⟩ := List.mem_map.1 (hitems ▸ List.mem_map_of_mem hleaf)
    exact h.bucketIssues_eq hs hitem.symm
  · rw [List.map_map]
    exact List.flatten_eq_nil_iff.2 fun l hl => (List.mem_map.1 hl).elim fun _ h => h.2.symm
  · rw [List.map_map]
    show Count.total (leaves.map fun leaf => leaf.value.size) = _
    rw [Count.total_of_lt (hsum ▸ hbound), hsum]

/-! ## The chain -/

/-- A link of the chain has no issue just if it leads back and forth between two members in chain order. -/
theorem linkIssues_eq_nil_iff {current next : Link} :
    z.linkIssues current next = .ok [] ↔ ∃ here there, z.chain.get current = .ok here ∧
      z.chain.get next = .ok there ∧ there.prev = current ∧ precedes here there = .ok true := by
  unfold linkIssues
  constructor
  · intro h
    obtain ⟨there, hthere, hrest⟩ := exists_of_bind_eq_ok h
    obtain ⟨here, hhere, hrest⟩ := exists_of_bind_eq_ok hrest
    obtain ⟨ordered, hordered, hall⟩ := exists_of_bind_eq_ok hrest
    have hnil := Except.ok.inj hall
    rw [List.append_eq_nil_iff, ite_eq_nil_iff, ite_eq_nil_iff] at hnil
    obtain ⟨hprev, rfl⟩ := hnil
    exact ⟨here, there, hhere, hthere, hprev, hordered⟩
  · intro h
    obtain ⟨here, there, hhere, hthere, hprev, hordered⟩ := h
    rw [hhere, hthere]
    dsimp only [bind, Except.bind]
    rw [hordered]
    show Except.ok ((if there.prev = current then [] else _) ++ (if true = true then [] else _)) = _
    rw [if_pos hprev, if_pos rfl]
    rfl

/-- Two neighbours in the chain are linked both ways and in order. -/
theorem linkIssues_eq {xs ys : List (Entry (Scored V))} {a b : Entry (Scored V)}
    (hc : z.chain.Chained (xs ++ a :: b :: ys)) (hlt : KeyBefore a b) :
    z.linkIssues (some a.id) (some b.id) = .ok [] := by
  have hhere := Pool.leaf?_of_mem hc
  have hcut : xs ++ a :: b :: ys = (xs ++ [a]) ++ b :: ys := by simp
  rw [hcut] at hc
  have hthere := Pool.leaf?_of_mem hc
  exact linkIssues_eq_nil_iff.2
    ⟨_, _, Pool.get_ok hhere, Pool.get_ok hthere, Entry.last_concat xs a, (precedes_eq_true_iff rfl rfl).2 hlt⟩

theorem followChain_zero (visited : Nat) (current : Link) :
    z.followChain 0 visited current = (do
      let next ← z.chain.nextOf current
      if next = none then return if visited = z.card then [] else [.chainLength visited z.card]
      let here ← z.linkIssues current next
      return here ++ [.chainTooLong]) := rfl

theorem followChain_succ (room visited : Nat) (current : Link) :
    z.followChain (room + 1) visited current = (do
      let next ← z.chain.nextOf current
      if next = none then return if visited = z.card then [] else [.chainLength visited z.card]
      let here ← z.linkIssues current next
      return here ++ (← z.followChain room (visited + 1) next)) := rfl

/-- At the end of the chain only the count is looked at. -/
theorem followChain_end {room visited : Nat} {current : Link} (hnext : z.chain.nextOf current = .ok none)
    (hall : visited = z.card) : z.followChain room visited current = .ok [] := by
  cases room with
  | zero =>
      rw [followChain_zero, hnext]
      show Except.ok (if visited = z.card then [] else _) = _
      rw [if_pos hall]
  | succ room =>
      rw [followChain_succ, hnext]
      show Except.ok (if visited = z.card then [] else _) = _
      rw [if_pos hall]

/-- **The chain shows no issue** from any place on it. -/
theorem followChain_eq {xs rest : List (Entry (Scored V))} {e : Entry (Scored V)} {room visited : Nat}
    (hc : z.chain.Chained (xs ++ e :: rest)) (ho : (e :: rest).Pairwise KeyBefore)
    (hcard : z.card = visited + rest.length) (hroom : rest.length ≤ room) :
    z.followChain room visited (some e.id) = .ok [] := by
  induction rest generalizing xs e room visited with
  | nil =>
      have hnext : z.chain.nextOf (some e.id) = .ok none := Pool.nextOf_ok (Pool.leaf?_of_mem hc)
      have hall : visited = z.card := by rw [hcard, List.length_nil, Nat.add_zero]
      exact followChain_end hnext hall
  | cons next rest ih =>
      rw [List.pairwise_cons] at ho
      obtain ⟨hlt, ho⟩ := ho
      have hlink := linkIssues_eq hc (hlt next List.mem_cons_self)
      have hnext : z.chain.nextOf (some e.id) = .ok (some next.id) := Pool.nextOf_ok (Pool.leaf?_of_mem hc)
      have hcut : xs ++ e :: next :: rest = (xs ++ [e]) ++ next :: rest := by simp
      rw [hcut] at hc
      rw [List.length_cons] at hcard hroom
      obtain ⟨room, rfl⟩ : ∃ k, room = k + 1 := ⟨room - 1, by omega⟩
      -- one step on, one more was visited and there is room for one less
      have hrec : z.followChain room (visited + 1) (some next.id) = .ok [] := ih hc ho (by omega) (by omega)
      rw [followChain_succ, hnext]
      show (z.linkIssues (some e.id) (some next.id) >>= fun here =>
        z.followChain room (visited + 1) (some next.id) >>= fun rest => pure (here ++ rest)) = _
      rw [hlink, hrec]
      rfl

theorem Holds.card_eq (h : z.Holds es tiers) : z.card = (stock tiers).length := by
  rw [h.length_stock]
  exact h.members.size_eq

theorem Holds.chainIssues_eq (h : z.Holds es tiers) : z.chainIssues = .ok [] := by
  unfold chainIssues
  by_cases hne : tiers = []
  · subst hne
    rw [h.tiered.shows.ends?_nil]
    rfl
  · obtain ⟨a, b, ha, -, hends⟩ := h.tiered.shows.ends?_eq hne
    obtain ⟨e, rest, hstock⟩ : ∃ e rest, stock tiers = e :: rest :=
      List.exists_cons_of_ne_nil fun hnil => by simp [hnil] at ha
    have hcard := h.card_eq
    have ho := h.tiered.shows.stock_keyBefore
    have hc : z.chain.Chained ([] ++ e :: rest) := hstock ▸ h.tiered.chained
    rw [hstock] at ha hcard ho
    obtain rfl : e.id = a := Option.some.inj ha
    have hprev : z.chain.prevOf (some e.id) = .ok none := Pool.prevOf_ok (Pool.leaf?_of_mem hc)
    rw [List.length_cons] at hcard
    rw [hends]
    show (z.chain.prevOf (some e.id) >>= fun before =>
      z.followChain (z.card - 1) 1 (some e.id) >>= fun rest =>
        pure ((if before = none then [] else [Issue.beforeLowest]) ++ rest)) = _
    rw [hprev, followChain_eq hc ho (by omega) (by omega)]
    rfl

/-- **A scored set that holds entries has no issues.** -/
theorem Holds.issues_eq (h : z.Holds es tiers) : z.issues = .ok [] := by
  obtain ⟨found, hfound, hflat, htotal⟩ := h.bucketIssues_all
  have hcard := h.card_eq
  have hlive := h.tiered.live
  unfold issues
  rw [h.members.issues_eq, hfound, h.chainIssues_eq]
  show Except.ok (([] : List OrderedMap.Issue).map Issue.inMap ++ (found.map Prod.fst).flatten ++
    (if Count.total (found.map Prod.snd) = z.card then [] else _) ++
    (if z.chain.live = Count.total (found.map Prod.snd) then [] else _) ++ []) = _
  rw [hflat, htotal, if_pos hcard.symm, if_pos hlive]
  rfl

end OrderedStore.ScoredSet
