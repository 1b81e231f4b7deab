import Mathlib.Tactic
import OrderedStore.Proofs.Rows
import OrderedStore.Proofs.ScoredSet.Holds
import OrderedStore.ScoredSet.Range

/-!
# What a scored set answers

The reads of a scored set, told by the finite map that its entries list. Reads by member go to one copy, reads
in score order follow the chain of the other. Score order is numeric order, which does not tell the two zeros
apart, and then the order of the members' bytes.
-/

namespace OrderedStore

variable {V α : Type}

namespace FiniteMap

/-- The different scores of a finite map, by their rank. -/
def ranks (s : FiniteMap (Scored V)) : Finset (Option Int) :=
  s.keys.image fun key => (s.value key).map fun a => a.score.rank

end FiniteMap

/-- Score order: by score, then by member. -/
def Scored.Before (a b : Bytes × Scored V) : Prop :=
  a.2.score.below b.2.score = true ∨ a.2.score.same b.2.score = true ∧ a.1 < b.1

/-- Member order. -/
def Scored.MemberBefore (a b : Bytes × Scored V) : Prop := a.1 < b.1

/-- The part of some rows that is asked for, and how it is shown. -/
def RangeQuery.select (opts : RangeQuery) (rows : List (Bytes × Scored V)) : List (RangeRow V) :=
  let rest := (along opts.reverse rows).drop opts.offset
  let part := match opts.count with
    | some n => rest.take n
    | none => rest
  part.map fun (member, a) => ⟨member, if opts.withScores then some a.score else none, a.payload⟩

namespace Tier

variable {s s' : Tier V} {e e' : Entry (Scored V)}

theorem Fair.rank_eq (hs : s.Fair) (he : e ∈ s.run) (he' : e' ∈ s.run) : e.value.score.rank = e'.value.score.rank := by
  obtain ⟨-, hkey⟩ := ScoreKey.ofScore_eq_ok_iff.1 (hs.scored e he)
  obtain ⟨-, hkey'⟩ := ScoreKey.ofScore_eq_ok_iff.1 (hs.scored e' he')
  exact ScoreKey.ofNumber_eq_iff.1 (hkey.trans hkey'.symm)

theorem Fair.rank_lt (hs : s.Fair) (hs' : s'.Fair) (hlt : s.bucket.key < s'.bucket.key) (he : e ∈ s.run)
    (he' : e' ∈ s'.run) : e.value.score.rank < e'.value.score.rank := by
  obtain ⟨-, hkey⟩ := ScoreKey.ofScore_eq_ok_iff.1 (hs.scored e he)
  obtain ⟨-, hkey'⟩ := ScoreKey.ofScore_eq_ok_iff.1 (hs'.scored e' he')
  rw [hs.label, hs'.label, ← hkey, ← hkey'] at hlt
  exact ScoreKey.ofNumber_lt_iff.1 hlt

theorem Fair.number (hs : s.Fair) (he : e ∈ s.run) : e.value.score.isNaN = false :=
  (ScoreKey.ofScore_eq_ok_iff.1 (hs.scored e he)).1

theorem Fair.exists_mem (hs : s.Fair) : ∃ e, e ∈ s.run := List.exists_mem_of_ne_nil s.run hs.filled

/-- The rank of the scores on a tier. -/
def rank (s : Tier V) : Option Int := s.run.head?.map fun e => e.value.score.rank

theorem Fair.rank_of_mem (hs : s.Fair) (he : e ∈ s.run) : s.rank = some e.value.score.rank := by
  unfold rank
  cases hhead : s.run.head? with
  | none => exact absurd (List.head?_eq_none_iff.1 hhead) hs.filled
  | some e' => exact congrArg some (hs.rank_eq (List.mem_of_head? hhead) he)

end Tier

namespace ScoredSet

open Tier

variable {z : ScoredSet V} {tiers : List (Tier V)} {es : List (Entry (Scored V))} {s : FiniteMap (Scored V)}

theorem Shelved.ascending (h : z.Shelved tiers) : tiers.Pairwise fun s s' => s.bucket.key < s'.bucket.key := by
  have hordered := h.buckets.trie.ordered
  unfold Entry.Ordered at hordered
  rw [List.pairwise_map] at hordered
  exact hordered

/-- **The stock is in score order**, on every tier and from one tier to the next. -/
theorem Shelved.stock_ordered (h : z.Shelved tiers) :
    ((stock tiers).map Entry.item).Pairwise Scored.Before := by
  rw [List.pairwise_map, stock, List.pairwise_flatMap]
  constructor
  · intro s hs
    have hfair := h.fair s hs
    refine List.Pairwise.imp_of_mem ?_ hfair.ordered
    intro e e' he he' hlt
    -- on one tier scores are the same number, and the members are in order
    have hrank := hfair.rank_eq he he'
    exact Or.inr ⟨Binary64.same_iff_rank.2 ⟨hfair.number he, hfair.number he', hrank⟩, hlt⟩
  · refine List.Pairwise.imp_of_mem ?_ h.ascending
    intro s s' hs hs' hlt e he e' he'
    -- from one tier to the next scores rise
    have hrank := (h.fair s hs).rank_lt (h.fair s' hs') hlt he he'
    refine Or.inl ?_
    unfold Binary64.below
    simp [(h.fair s hs).number he, (h.fair s' hs').number he', Entry.item, hrank]

/-! ## The ends of the chain -/

theorem Shelved.ends?_nil (h : z.Shelved []) : z.ends? = .ok none := by
  obtain ⟨met, hmet, hitem, -⟩ := h.buckets.first?_eq
  obtain rfl : met = none := by simpa using hitem
  unfold ends?
  rw [hmet]
  rfl

theorem Shelved.ends?_eq (h : z.Shelved tiers) (hne : tiers ≠ []) :
    ∃ a b, Entry.first (stock tiers) = some a ∧ Entry.last (stock tiers) = some b ∧
      z.ends? = .ok (some (a, b)) := by
  obtain ⟨low, hlow, hlowItem, -⟩ := h.buckets.first?_eq
  obtain ⟨high, hhigh, hhighItem, -⟩ := h.buckets.last?_eq
  -- no bucket is empty, so the outermost ones have the ends
  have hstock : stock tiers ≠ [] := fun hnil => hne (List.eq_nil_of_length_eq_zero (by
    have hle := length_le_stock h.fair
    rw [hnil, List.length_nil] at hle
    omega))
  have hfirst := first_stock h.fair
  have hlast := last_stock h.fair
  obtain ⟨a, ha⟩ := Option.ne_none_iff_exists'.1 fun hnone => hstock (Entry.first_eq_none_iff.1 hnone)
  obtain ⟨b, hb⟩ := Option.ne_none_iff_exists'.1 fun hnone => hstock (Entry.last_eq_none_iff.1 hnone)
  refine ⟨a, b, ha, hb, ?_⟩
  rw [ha] at hfirst
  rw [hb] at hlast
  obtain ⟨s, hs, hsfirst⟩ := Option.bind_eq_some_iff.1 hfirst.symm
  obtain ⟨s', hs', hslast⟩ := Option.bind_eq_some_iff.1 hlast.symm
  rw [List.head?_map, hs] at hlowItem
  rw [List.getLast?_map, hs'] at hhighItem
  obtain ⟨leaf, rfl, hleaf⟩ := Option.map_eq_some_iff.1 hlowItem
  obtain ⟨leaf', rfl, hleaf'⟩ := Option.map_eq_some_iff.1 hhighItem
  have hvalue : leaf.value = s.bucket.value := congrArg Prod.snd hleaf
  have hvalue' : leaf'.value = s'.bucket.value := congrArg Prod.snd hleaf'
  unfold ends?
  rw [hlow, hhigh]
  dsimp only [bind, Except.bind]
  rw [hvalue, hvalue', hsfirst, hslast]
  rfl

/-- **The walk reads the stock.** -/
theorem Shows.walk_reads (h : z.Shows tiers) : ∃ w, z.walk = .ok w ∧ w.Reads false (stock tiers) := by
  have hc := h.linked
  rw [← List.nil_append (stock tiers), ← List.append_nil ([] ++ stock tiers)] at hc
  unfold walk
  by_cases hne : tiers = []
  · subst hne
    rw [h.ends?_nil]
    exact ⟨_, rfl, Walk.covers_between hc (fun hne => absurd rfl hne) fun _ => Or.inl rfl, rfl, fun _ => rfl⟩
  · obtain ⟨a, b, ha, hb, hends⟩ := h.ends?_eq hne
    rw [hends]
    refine ⟨_, rfl, Walk.covers_between hc (fun _ => ⟨ha.symm, hb.symm⟩) fun hnil => ?_, rfl, fun _ => rfl⟩
    rw [hnil] at ha
    simp at ha

/-! ## Agreement with a finite map -/

/-- A scored set and a finite map that no read can tell apart. -/
structure Agrees (z : ScoredSet V) (s : FiniteMap (Scored V)) : Prop where
  card : z.card = s.card
  get? : ∀ member, z.get? member = .ok (s.value member)
  score? : ∀ member, z.score? member = .ok ((s.value member).map Scored.score)
  bucketCount : z.bucketCount = s.ranks.card
  /-- The walk lists all members in score order, and its ends are the ends of that list. -/
  inOrder : ∃ rows, s.Enumerates Scored.Before (fun _ => True) rows ∧
    List.map Leaf.item <$> (z.walk >>= Walk.toList) = .ok rows ∧
    List.map Leaf.item <$> (z.walk >>= fun w => w.reverse.toList) = .ok rows.reverse ∧
    Option.map Leaf.item <$> z.first? = .ok rows.head? ∧
    Option.map Leaf.item <$> z.last? = .ok rows.getLast?
  /-- A range under some bytes is the asked part of the members that start with them, in member order. -/
  under : ∀ start, ∃ rows, s.Enumerates Scored.MemberBefore (start <+: ·) rows ∧
    ∀ opts, z.rangeUnder start opts = .ok (opts.select rows)

theorem Holds.value_iff (h : z.Holds es tiers) (hs : s.Lists es) {member : Bytes} {a : Scored V} :
    s.value member = some a ↔ (member, a) ∈ (stock tiers).map Entry.item := by
  rw [hs.value_iff, h.same.mem_iff]

theorem Holds.get?_eq (h : z.Holds es tiers) (hs : s.Lists es) (member : Bytes) :
    z.get? member = .ok (s.value member) := by
  obtain ⟨xs, ms, ys, hp⟩ := hs.ordered.partsAt member
  unfold get?
  rw [h.members.get?_eq hp, hs.value_at hp]

/-- The ranks of the scores are the ranks of the tiers. -/
theorem Holds.ranks_eq (h : z.Holds es tiers) (hs : s.Lists es) : s.ranks = (tiers.map Tier.rank).toFinset := by
  have hfair := h.tiered.shows.fair
  ext r
  unfold FiniteMap.ranks
  rw [Finset.mem_image, List.mem_toFinset, List.mem_map]
  constructor
  · rintro ⟨member, hmember, rfl⟩
    obtain ⟨a, ha⟩ := Option.isSome_iff_exists.1 ((s.value_isSome member).2 hmember)
    obtain ⟨e, he, hitem⟩ := List.mem_map.1 ((h.value_iff hs).1 ha)
    obtain ⟨tier, htier, hrun⟩ := mem_stock.1 he
    have hvalue : e.value = a := congrArg Prod.snd hitem
    refine ⟨tier, htier, ?_⟩
    rw [(hfair tier htier).rank_of_mem hrun, ha, hvalue]
    rfl
  · -- a tier is not empty, so some member has its rank
    rintro ⟨tier, htier, rfl⟩
    obtain ⟨e, he⟩ := (hfair tier htier).exists_mem
    have hvalue : s.value e.key = some e.value :=
      (h.value_iff hs).2 (List.mem_map_of_mem (mem_stock.2 ⟨tier, htier, he⟩))
    refine ⟨e.key, s.mem_of_value hvalue, ?_⟩
    rw [hvalue, (hfair tier htier).rank_of_mem he]
    rfl

/-- No two tiers have the same rank. -/
theorem Shelved.ranks_nodup (h : z.Shelved tiers) : (tiers.map Tier.rank).Nodup := by
  refine List.pairwise_map.2 (List.Pairwise.imp_of_mem ?_ h.ascending)
  intro tier tier' htier htier' hlt heq
  obtain ⟨e, he⟩ := (h.fair tier htier).exists_mem
  obtain ⟨e', he'⟩ := (h.fair tier' htier').exists_mem
  have hrank := (h.fair tier htier).rank_lt (h.fair tier' htier') hlt he he'
  rw [(h.fair tier htier).rank_of_mem he, (h.fair tier' htier').rank_of_mem he'] at heq
  exact absurd (Option.some.inj heq) (by omega)

/-- **There are as many buckets as different scores.** -/
theorem Holds.bucketCount_eq (h : z.Holds es tiers) (hs : s.Lists es) : z.bucketCount = s.ranks.card := by
  unfold bucketCount
  rw [h.tiered.buckets.size_eq, h.ranks_eq hs, List.toFinset_card_of_nodup h.tiered.shows.ranks_nodup, List.length_map,
    List.length_map]

/-- The walk between the ends of a bucket reads its run. -/
theorem Shows.tier_reads (h : z.Shows tiers) {t : Tier V} (ht : t ∈ tiers) :
    (z.walkBetween t.bucket.value.first t.bucket.value.last).Reads false t.run := by
  have hfair := h.fair t ht
  obtain ⟨L, R, rfl⟩ := List.append_of_mem ht
  have hc := h.linked
  rw [stock_mid] at hc
  exact ⟨Walk.covers_between hc (fun _ => ⟨hfair.first, hfair.last⟩) fun hnil => absurd hnil hfair.filled, rfl,
    fun _ => rfl⟩

/-- The walk lists the stock, from either end. -/
theorem Shows.walked (h : z.Shows tiers) :
    List.map Leaf.item <$> (z.walk >>= Walk.toList) = .ok ((stock tiers).map Entry.item) ∧
      List.map Leaf.item <$> (z.walk >>= fun w => w.reverse.toList) = .ok ((stock tiers).map Entry.item).reverse ∧
      Option.map Leaf.item <$> z.first? = .ok ((stock tiers).map Entry.item).head? ∧
      Option.map Leaf.item <$> z.last? = .ok ((stock tiers).map Entry.item).getLast? := by
  obtain ⟨w, hwalk, hreads⟩ := h.walk_reads
  unfold first? last?
  rw [hwalk]
  dsimp only [bind, Except.bind]
  refine ⟨?_, ?_, ?_, ?_⟩
  · obtain ⟨leaves, hleaves, hitems⟩ := hreads.toList
    rw [along_false] at hitems
    rw [hleaves, ← hitems]
    rfl
  · obtain ⟨leaves, hleaves, hitems⟩ := hreads.reverse.toList
    rw [Bool.not_false, along_true, List.map_reverse] at hitems
    rw [hleaves, ← hitems]
    rfl
  · obtain ⟨met, hmet, hitem⟩ := hreads.next
    rw [along_false, ← List.head?_map] at hitem
    rw [hmet, ← hitem]
    simp [pure, Except.pure, Option.map_map, Function.comp_def]
  · obtain ⟨met, hmet, hitem⟩ := hreads.nextBack
    rw [Bool.not_false, along_true, List.head?_reverse, ← List.getLast?_map] at hitem
    rw [hmet, ← hitem]
    simp [pure, Except.pure, Option.map_map, Function.comp_def]

/-- **The walk lists every member once, in score order.** -/
theorem Holds.inOrder (h : z.Holds es tiers) (hs : s.Lists es) :
    ∃ rows, s.Enumerates Scored.Before (fun _ => True) rows ∧
      List.map Leaf.item <$> (z.walk >>= Walk.toList) = .ok rows ∧
      List.map Leaf.item <$> (z.walk >>= fun w => w.reverse.toList) = .ok rows.reverse ∧
      Option.map Leaf.item <$> z.first? = .ok rows.head? ∧
      Option.map Leaf.item <$> z.last? = .ok rows.getLast? := by
  refine ⟨(stock tiers).map Entry.item, ⟨h.tiered.shows.stock_ordered, ?_⟩, h.tiered.shows.walked⟩
  intro key a
  rw [and_true]
  exact (h.value_iff hs).symm

/-- What a page of a trace without a fault shows. -/
theorem page_ofList (opts : RangeQuery) (leaves : List (Leaf (Scored V))) {rows : List (Bytes × Scored V)}
    (h : leaves.map Leaf.item = along opts.reverse rows) :
    page opts (.ofList leaves) = .ok (opts.select rows) := by
  unfold page RangeQuery.select
  rw [← h]
  cases opts.count with
  | none =>
      simp only [Trace.drop_ofList, Trace.map_ofList, Trace.toList_ofList, ← List.map_drop, List.map_map]
      rfl
  | some n =>
      simp only [Trace.drop_ofList, Trace.take_ofList, Trace.map_ofList, Trace.toList_ofList, ← List.map_drop,
        ← List.map_take, List.map_map]
      rfl

/-- The members that start with some bytes, in member order. -/
theorem enumerates_under (hs : s.Lists es) {start : Bytes} {xs ms ys : List (Entry (Scored V))}
    (hp : Entry.PartsUnder start es xs ms ys) :
    s.Enumerates Scored.MemberBefore (start <+: ·) (ms.map Entry.item) := by
  have hrows := hs.enumerates.filter (start <+: ·)
  rw [List.filter_map] at hrows
  rw [hp.within_eq]
  exact hrows

/-- **A range under some bytes** is the asked part of the members that start with them. -/
theorem Holds.under (h : z.Holds es tiers) (hs : s.Lists es) (start : Bytes) :
    ∃ rows, s.Enumerates Scored.MemberBefore (start <+: ·) rows ∧
      ∀ opts, z.rangeUnder start opts = .ok (opts.select rows) := by
  obtain ⟨xs, ms, ys, hp, -⟩ := h.members.trie.covering?_parts start
  refine ⟨ms.map Entry.item, enumerates_under hs hp, fun opts => ?_⟩
  -- the walk in the direction that is asked for
  obtain ⟨w, hw, hreads⟩ : ∃ w,
      (if opts.reverse then (z.byMember.walkUnder start).reverse else z.byMember.walkUnder start) = w ∧
        w.Reads opts.reverse ms := by
    cases opts.reverse with
    | false => exact ⟨_, rfl, h.members.walkUnder_reads hp⟩
    | true => exact ⟨_, rfl, (h.members.walkUnder_reads hp).reverse⟩
  have hsteps : ms.length < pageSteps opts w := by
    have hfuel := hreads.covers.length_lt_fuel
    unfold pageSteps
    omega
  obtain ⟨leaves, htrace, hitems⟩ := hreads.trace hsteps
  unfold rangeUnder
  dsimp only
  rw [hw, htrace]
  refine page_ofList opts leaves ?_
  rw [hitems]
  cases opts.reverse <;> simp

theorem Holds.agrees (h : z.Holds es tiers) (hs : s.Lists es) : z.Agrees s where
  card := by
    unfold card
    rw [h.members.size_eq, hs.card_eq]
  get? := h.get?_eq hs
  score? := by
    intro member
    unfold score?
    rw [h.get?_eq hs]
    rfl
  bucketCount := h.bucketCount_eq hs
  inOrder := h.inOrder hs
  under := h.under hs

end ScoredSet

end OrderedStore
