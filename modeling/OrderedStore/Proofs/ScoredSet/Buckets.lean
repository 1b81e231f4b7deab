import Mathlib.Tactic
import OrderedStore.Proofs.ScoredSet.Tiers

/-!
# Members come and go

What the three changes to the tiers of a scored set do to their stock: a member put on the tier of its
score, a member taken off it, and a member that gets another payload where it stands. Tiers are made and
dropped on the way, but a change of the stock is all that the rest of the set sees.
-/

namespace OrderedStore.ScoredSet

open Edit Tier
open Entry (PartsAt)

variable {V : Type} {z : ScoredSet V} {key : ScoreKey} {member : Bytes} {scored : Scored V}
  {tiers L R : List (Tier V)} {s : Tier V}

/-- The tier around a member of the stock. -/
theorem Tiered.tier_of_mem (h : z.Tiered tiers) {e : Entry (Scored V)} (he : e ∈ stock tiers)
    (hkey : ScoreKey.ofScore e.value.score = .ok key) :
    ∃ L s R xs ys, tiers = L ++ s :: R ∧ s.key = key ∧ s.run = xs ++ e :: ys := by
  obtain ⟨s, hs, hmem⟩ := mem_stock.1 he
  have hscored := (h.good s hs).scored e hmem
  obtain ⟨L, R, rfl⟩ := List.append_of_mem hs
  obtain ⟨xs, ys, hrun⟩ := List.append_of_mem hmem
  exact ⟨L, s, R, xs, ys, rfl, Except.ok.inj (hscored.symm.trans hkey), hrun⟩

/-- One tier among good tiers gives way to another one. -/
theorem good_among {s₁ : Tier V} (hgood : ∀ s' ∈ L ++ R, s'.Good) (hs₁ : s₁.Good) :
    ∀ s' ∈ L ++ s₁ :: R, s'.Good := by
  intro s' hs'
  rw [List.perm_middle.mem_iff, List.mem_cons] at hs'
  rcases hs' with rfl | hs'
  · exact hs₁
  · exact hgood s' hs'

theorem Tiered.good_around (h : z.Tiered (L ++ s :: R)) : ∀ s' ∈ L ++ R, s'.Good := by
  intro s' hs'
  refine h.good s' ?_
  rw [List.perm_middle.mem_iff]
  exact List.mem_cons_of_mem _ hs'

/-- A member that is not in stock is not on any tier. -/
theorem Tiered.absent_from_run (h : z.Tiered (L ++ s :: R)) (hnew : ∀ e ∈ stock (L ++ s :: R), e.key ≠ member) :
    ∃ xs ys, PartsAt member s.run xs [] ys := by
  have hs := h.good s (by simp)
  -- a member in the bucket would be in stock
  rcases hs.holds.ordered.present_or_absent member with ⟨xs, e, ys, hkey, hin⟩ | habsent
  · refine absurd hkey (hnew e (mem_stock.2 ⟨s, by simp, ?_⟩))
    rw [hin.parts]
    simp
  · exact habsent

theorem Tiered.contains_present (h : z.Tiered (L ++ s :: R)) : z.buckets.contains s.key.toBytes = true := by
  rw [← (h.good s (by simp)).label, h.buckets.contains_eq h.partsAt]
  rfl

theorem linkEnds_yields (hb : z.buckets.Holds ((L ++ s :: R).map Tier.bucket)) (haccepts : 8 ≤ z.buckets.keyLimit)
    (hgood : ∀ s' ∈ L ++ s :: R, s'.Good)
    (htie : (do
      let p ← z.chain.connect (Entry.last (stock L)) (Entry.first s.run)
      p.connect (Entry.last s.run) (Entry.first (stock R)) : Edit (Pool (Scored V))).Yields fun p =>
        p.Chained (stock (L ++ s :: R)) ∧ p.live = (stock (L ++ s :: R)).length) :
    (z.linkEnds s.key).Yields fun z' => z'.byMember = z.byMember ∧ z'.Tiered (L ++ s :: R) := by
  rw [linkEnds_eq hb hgood]
  refine Yields.bind htie ?_
  rintro chain ⟨hc, hlive⟩
  exact Yields.pure ⟨rfl, hb, haccepts, hgood, hc, hlive⟩

/-- Linking the ends of a tier that has its place in the chain already. -/
theorem relinkEnds_yields (hb : z.buckets.Holds (L.map Tier.bucket ++ s.bucket :: R.map Tier.bucket))
    (haccepts : 8 ≤ z.buckets.keyLimit) (hgood : ∀ s' ∈ L ++ R, s'.Good) (hs : s.Good)
    (hchain : z.chain.Chained (stock L ++ s.run ++ stock R))
    (hlive : z.chain.live = (stock (L ++ s :: R)).length) :
    (z.linkEnds s.key).Yields fun z' => z'.byMember = z.byMember ∧ z'.Tiered (L ++ s :: R) := by
  refine linkEnds_yields ?_ haccepts (good_among hgood hs) ?_
  · rw [List.map_append, List.map_cons]
    exact hb
  · refine (Pool.relink_yields hchain hs.filled).mono ?_
    rintro p ⟨hp, hlive'⟩
    rw [stock_mid L R s]
    refine ⟨hp, ?_⟩
    rw [hlive', hlive, stock_mid]

/-- Dropping a tier whose bucket is empty: the tiers around it become neighbours. -/
theorem dropTier_yields {b : Entry Trie} (hb : z.buckets.Holds (L.map Tier.bucket ++ b :: R.map Tier.bucket))
    (haccepts : 8 ≤ z.buckets.keyLimit) (hkey : b.key = key.toBytes) (hgood : ∀ s' ∈ L ++ R, s'.Good)
    (hchain : z.chain.Chained (stock L ++ stock R)) (hlive : z.chain.live = (stock (L ++ R)).length) :
    (do
      let (_, buckets) ← z.buckets.erase key.toBytes
      let (pred, succ) ← adjacentEnds { z with buckets } key
      return { z with buckets, chain := ← z.chain.connect pred succ } : Edit (ScoredSet V)).Yields fun z' =>
        z'.byMember = z.byMember ∧ z'.Tiered (L ++ R) := by
  have hp := hb.trie.ordered.partsAt_mem
  rw [← hkey]
  refine Yields.bind (hb.erase_old hp) ?_
  rintro ⟨_, buckets⟩ ⟨-, hlimit, hbuckets⟩
  dsimp only
  have hp' : PartsAt key.toBytes (L.map Tier.bucket ++ R.map Tier.bucket) (L.map Tier.bucket) []
      (R.map Tier.bucket) := by
    rw [← hkey]
    exact ⟨by simp, hp.below, by simp, hp.above, Nat.zero_le _⟩
  have hsides := List.forall_mem_append.1 hgood
  refine Yields.bind_lift (adjacentEnds_eq (z := { z with buckets }) hbuckets hp' hsides.1 hsides.2) ?_
  refine Yields.bind (Pool.reconnect_yields hchain) ?_
  rintro chain ⟨hchain', hlive'⟩
  refine Yields.pure ⟨rfl, ?_, hlimit ▸ haccepts, hgood, ?_, hlive'.trans hlive⟩
  · rw [List.map_append]
    exact hbuckets
  · rw [stock_append]
    exact hchain'

/-! ## A new member -/

/-- A new member on a tier that is there. -/
theorem Tiered.insert_present (h : z.Tiered (L ++ s :: R)) (hscore : ScoreKey.ofScore scored.score = .ok s.key)
    (hnew : ∀ e ∈ stock (L ++ s :: R), e.key ≠ member)
    (hroom : (stock (L ++ s :: R)).length < Pool.slotLimit) :
    (z.insertIntoBucket s.key member scored).Yields fun z' => z'.byMember = z.byMember ∧
      ∃ e tiers', e.key = member ∧ e.value = scored ∧ z'.Tiered tiers' ∧
        (stock tiers').Perm (e :: stock (L ++ s :: R)) := by
  have hs := h.good s (by simp)
  have hp := h.partsAt
  obtain ⟨xs, ys, hin⟩ := h.absent_from_run hnew
  have hrun := hin.absent_eq
  have hc := h.chained
  rw [stock_mid] at hc
  unfold insertIntoBucket
  rw [if_pos h.contains_present, pure_bind]
  refine Yields.bind (editBucket_yields h.buckets hs.label hp
    (hs.holds.insert_new hc hin (h.live ▸ hroom))) ?_
  rintro ⟨_, t, z₁⟩ ⟨⟨-, e, hkey, rfl, ht, hlive, -, hchain, -⟩, hby, hlimit, hbuckets⟩
  have hchain := hchain hs.filled
  dsimp only at ht hlive hchain ⊢
  have hs₁ : (s.restocked t (xs ++ e :: ys)).Good := by
    refine hs.restocked ht (fun x hx => ?_) (by simp)
    rw [List.perm_middle.mem_iff, List.mem_cons, ← hrun] at hx
    rcases hx with rfl | hx
    · exact hscore
    · exact hs.scored x hx
  -- the run has the new member in its place, the stock has it somewhere
  have hperm : (stock (L ++ s.restocked t (xs ++ e :: ys) :: R)).Perm (e :: stock (L ++ s :: R)) := by
    rw [stock_mid L R s, hrun]
    exact stock_perm rfl
  have hlen := hperm.length_eq
  rw [List.length_cons] at hlen
  refine (relinkEnds_yields (s := s.restocked t (xs ++ e :: ys)) hbuckets (hlimit ▸ h.accepts) h.good_around hs₁
    hchain ?_).mono ?_
  · rw [hlive, h.live, hlen]
  · rintro z' ⟨hby', hz'⟩
    exact ⟨hby'.trans hby, e, _, hkey, rfl, hz', hperm⟩

/-- A new member on a new tier. -/
theorem Tiered.insert_absent (h : z.Tiered (L ++ R))
    (hp : PartsAt key.toBytes ((L ++ R).map Tier.bucket) (L.map Tier.bucket) [] (R.map Tier.bucket))
    (hscore : ScoreKey.ofScore scored.score = .ok key) (hroom : (stock (L ++ R)).length < Pool.slotLimit) :
    (z.insertIntoBucket key member scored).Yields fun z' => z'.byMember = z.byMember ∧
      ∃ e tiers', e.key = member ∧ e.value = scored ∧ z'.Tiered tiers' ∧
        (stock tiers').Perm (e :: stock (L ++ R)) := by
  have hcontains : z.buckets.contains key.toBytes = false := h.buckets.contains_eq hp
  -- a set with room for a member has room for a bucket, as no bucket is empty
  have htiers := length_le_stock h.shows.fair
  have hc := h.chained
  have hlive₀ := h.live
  rw [stock_append, ← List.append_nil (stock L)] at hc
  unfold insertIntoBucket
  rw [hcontains, if_neg Bool.false_ne_true]
  refine Yields.bind_fresh fun stamp => ?_
  refine Yields.bind (h.buckets.insertOrKeep_new h.accepts hp (by rw [List.length_map]; omega)) ?_
  rintro buckets ⟨hlimit, b, hb, hvalue, hbuckets⟩
  have hpb : PartsAt b.key (L.map Tier.bucket ++ b :: R.map Tier.bucket) (L.map Tier.bucket) [b]
      (R.map Tier.bucket) := hbuckets.trie.ordered.partsAt_mem
  -- the member goes alone into an empty bucket, and only then between its neighbours
  have hempty : b.value.Holds ([] : List (Entry (Scored V))) := hvalue ▸ Trie.holds_empty stamp
  refine Yields.bind (editBucket_yields (z := { z with buckets }) hbuckets hb hpb
    (hempty.insert_new hc Entry.partsAt_nil (hlive₀ ▸ hroom))) ?_
  rintro ⟨_, t, z₁⟩ ⟨⟨-, e, hkey, rfl, ht, hlive, hid, -, hchain, -, -⟩, hby, hlimit₁, hbuckets₁⟩
  obtain ⟨hchain, halone⟩ := hchain rfl
  rw [List.append_nil] at hid
  dsimp only at ht hlive hchain halone ⊢
  have hs₁ : Good ⟨key, { b with value := t }, [e]⟩ := by
    refine ⟨hb, ht, fun x hx => ?_, by simp⟩
    rw [List.mem_singleton.1 hx]
    exact hscore
  have hperm : (stock (L ++ ⟨key, { b with value := t }, [e]⟩ :: R)).Perm (e :: stock (L ++ R)) := by
    have hmid : (stock (L ++ ⟨key, { b with value := t }, [e]⟩ :: R)).Perm (e :: (stock L ++ ([] ++ []) ++ stock R)) :=
      stock_perm rfl
    rwa [List.append_nil, List.append_nil, ← stock_append] at hmid
  have hlen := hperm.length_eq
  rw [List.length_cons] at hlen
  have haccepts : 8 ≤ z₁.buckets.keyLimit := (hlimit₁.trans hlimit) ▸ h.accepts
  refine (linkEnds_yields (s := ⟨key, { b with value := t }, [e]⟩) ?_ haccepts (good_among h.good hs₁) ?_).mono ?_
  · rw [List.map_append, List.map_cons]
    exact hbuckets₁
  · refine (Pool.link_between_yields hchain halone hid).mono ?_
    rintro p ⟨hp₁, hlive₁, -⟩
    refine ⟨?_, ?_⟩
    · rw [stock_append, stock_cons]
      exact hp₁
    · rw [hlive₁, hlive, hlive₀, hlen]
  · rintro z' ⟨hby', hz'⟩
    exact ⟨hby'.trans hby, e, _, hkey, rfl, hz', hperm⟩

/-- **A new member** is put on the tier of its score, which is made if it is not there. -/
theorem Tiered.insertIntoBucket_yields (h : z.Tiered tiers)
    (hscore : ScoreKey.ofScore scored.score = .ok key) (hnew : ∀ e ∈ stock tiers, e.key ≠ member)
    (hroom : (stock tiers).length < Pool.slotLimit) :
    (z.insertIntoBucket key member scored).Yields fun z' => z'.byMember = z.byMember ∧
      ∃ e tiers', e.key = member ∧ e.value = scored ∧ z'.Tiered tiers' ∧
        (stock tiers').Perm (e :: stock tiers) := by
  rcases h.present_or_absent key with ⟨L, s, R, rfl, rfl⟩ | ⟨L, R, rfl, hp⟩
  · exact h.insert_present hscore hnew hroom
  · exact h.insert_absent hp hscore hroom

/-- In a full set a new member finds no slot, on a tier that is there or on one made for it. -/
theorem Tiered.insertIntoBucket_faults (h : z.Tiered tiers) (hnew : ∀ e ∈ stock tiers, e.key ≠ member)
    (hfull : Pool.slotLimit ≤ (stock tiers).length) :
    (z.insertIntoBucket key member scored).Faults .poolExhausted := by
  have hlive := h.live
  have hc := h.chained
  unfold insertIntoBucket
  rcases h.present_or_absent key with ⟨L, s, R, rfl, rfl⟩ | ⟨L, R, rfl, hp⟩
  · have hs := h.good s (by simp)
    have hp := h.partsAt
    obtain ⟨xs, ys, hin⟩ := h.absent_from_run hnew
    rw [if_pos h.contains_present, pure_bind]
    rw [stock_mid] at hc
    exact Faults.bind (editBucket_faults h.buckets hs.label hp
      (hs.holds.insert_faults hc hin (hlive ▸ hfull)))
  · have hcontains : z.buckets.contains key.toBytes = false := h.buckets.contains_eq hp
    rw [hcontains, if_neg Bool.false_ne_true]
    refine Faults.bind_fresh fun stamp => ?_
    -- with as many tiers as members the new tier itself finds no slot
    by_cases hroom : ((L ++ R).map Tier.bucket).length < Pool.slotLimit
    · refine Yields.bind_faults (h.buckets.insertOrKeep_new h.accepts hp hroom) ?_
      rintro buckets ⟨-, b, hb, hvalue, hbuckets⟩
      rw [stock_append, ← List.append_nil (stock L)] at hc
      have hempty : b.value.Holds ([] : List (Entry (Scored V))) := hvalue ▸ Trie.holds_empty stamp
      exact Faults.bind (editBucket_faults (z := { z with buckets }) hbuckets hb
        hbuckets.trie.ordered.partsAt_mem (hempty.insert_faults hc Entry.partsAt_nil (hlive ▸ hfull)))
    · exact Faults.bind (h.buckets.insertOrKeep_faults h.accepts hp (Nat.le_of_not_lt hroom))

/-! ## A member that goes -/

/-- **A member is taken off its tier.** A tier left empty goes with it. -/
theorem Tiered.eraseFromBucket_yields (h : z.Tiered tiers) {e : Entry (Scored V)} (he : e ∈ stock tiers)
    (hscore : ScoreKey.ofScore e.value.score = .ok key) :
    (z.eraseFromBucket key e.key).Yields fun z' => z'.byMember = z.byMember ∧
      ∃ tiers', z'.Tiered tiers' ∧ (stock tiers).Perm (e :: stock tiers') := by
  obtain ⟨L, s, R, xs, ys, rfl, rfl, hrun⟩ := h.tier_of_mem he hscore
  have hs := h.good s (by simp)
  have hin := hs.partsAt_mem hrun
  have hc := h.chained
  rw [stock_mid] at hc
  unfold eraseFromBucket
  refine Yields.bind (editBucket_yields h.buckets hs.label h.partsAt (hs.holds.erase_old hc hin)) ?_
  rintro ⟨_, t, z₁⟩ ⟨⟨rfl, ht, hlive, hchain, -, -⟩, hby, hlimit, hbuckets⟩
  dsimp only at ht hlive hchain ⊢
  have haccepts : 8 ≤ z₁.buckets.keyLimit := hlimit ▸ h.accepts
  rw [if_neg (by simp)]
  have hperm : (stock (L ++ s :: R)).Perm (e :: (stock L ++ (xs ++ ys) ++ stock R)) := stock_perm hrun
  have hlen := h.live
  by_cases hnil : xs ++ ys = []
  · rw [hnil, List.append_nil, ← stock_append L R] at hperm
    rw [hnil, List.append_nil] at hchain
    rw [hperm.length_eq, List.length_cons] at hlen
    rw [if_pos (ht.isEmpty_iff.2 hnil)]
    refine (dropTier_yields hbuckets haccepts hs.label h.good_around hchain (by omega)).mono ?_
    rintro z' ⟨hby', hz'⟩
    exact ⟨hby'.trans hby, L ++ R, hz', hperm⟩
  · -- the bucket keeps its other members, and its ends are linked anew though they may be the old ones
    have hs₁ : (s.restocked t (xs ++ ys)).Good := by
      refine hs.restocked ht (fun x hx => hs.scored x ?_) hnil
      rw [hrun, List.perm_middle.mem_iff]
      exact List.mem_cons_of_mem _ hx
    have hstock : stock (L ++ s.restocked t (xs ++ ys) :: R) = stock L ++ (xs ++ ys) ++ stock R := stock_mid L R _
    rw [← hstock] at hperm
    rw [hperm.length_eq, List.length_cons] at hlen
    rw [if_neg fun hempty => hnil (ht.isEmpty_iff.1 hempty)]
    refine (relinkEnds_yields (s := s.restocked t (xs ++ ys)) hbuckets haccepts h.good_around hs₁ hchain
      (by omega)).mono ?_
    rintro z' ⟨hby', hz'⟩
    exact ⟨hby'.trans hby, _, hz', hperm⟩

/-! ## A member that stays -/

/-- **A member that keeps its tier** gets its score and payload where it stands. -/
theorem Tiered.restore_yields (h : z.Tiered tiers) {e : Entry (Scored V)} (he : e ∈ stock tiers)
    (hold : ScoreKey.ofScore e.value.score = .ok key) (hscore : ScoreKey.ofScore scored.score = .ok key) :
    (z.editBucket key fun bucket chain => bucket.insert chain e.key scored).Yields fun (_, _, z') =>
      z'.byMember = z.byMember ∧
        ∃ tiers' rest, z'.Tiered tiers' ∧ (stock tiers).Perm (e :: rest) ∧
          (stock tiers').Perm ({ e with value := scored } :: rest) := by
  obtain ⟨L, s, R, xs, ys, rfl, rfl, hrun⟩ := h.tier_of_mem he hold
  have hs := h.good s (by simp)
  have hc := h.chained
  rw [stock_mid] at hc
  refine (editBucket_yields h.buckets hs.label h.partsAt
    (hs.holds.insert_old hc (hs.partsAt_mem hrun))).mono ?_
  rintro ⟨_, t, z₁⟩ ⟨⟨-, ht, hlive, hchain, -⟩, hby, hlimit, hbuckets⟩
  dsimp only at ht hlive hchain ⊢
  have hs₁ : (s.restocked t (xs ++ { e with value := scored } :: ys)).Good := by
    refine hs.restocked ht (fun x hx => ?_) (by simp)
    rw [List.perm_middle.mem_iff, List.mem_cons] at hx
    rcases hx with rfl | hx
    · exact hscore
    · refine hs.scored x ?_
      rw [hrun, List.perm_middle.mem_iff]
      exact List.mem_cons_of_mem _ hx
  have hbefore : (stock (L ++ s :: R)).Perm (e :: (stock L ++ (xs ++ ys) ++ stock R)) := stock_perm hrun
  have hafter : (stock (L ++ s.restocked t (xs ++ { e with value := scored } :: ys) :: R)).Perm
      ({ e with value := scored } :: (stock L ++ (xs ++ ys) ++ stock R)) := stock_perm rfl
  refine ⟨hby, _, _, ⟨?_, hlimit ▸ h.accepts, good_among h.good_around hs₁, ?_, ?_⟩, hbefore, hafter⟩
  · rw [List.map_append, List.map_cons]
    exact hbuckets
  · rw [stock_mid]
    exact hchain
  · rw [hlive, h.live, hbefore.length_eq, hafter.length_eq, List.length_cons, List.length_cons]

end OrderedStore.ScoredSet
