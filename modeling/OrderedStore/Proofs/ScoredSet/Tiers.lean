import Mathlib.Tactic
import OrderedStore.Proofs.OrderedMap.Walk
import OrderedStore.Proofs.Score.Key
import OrderedStore.ScoredSet.Basic

/-!
# The buckets of a scored set as tiers

A tier is a bucket together with the members in it. The buckets of a sound scored set are tiers in score
order, none of them empty, and its chain runs through the stock of all tiers, one tier after the other.
The chain does not know where a tier ends, the buckets do not know what the chain links: what joins the two
is that the ends of a tier are next to the ends of the tiers around it.
-/

namespace OrderedStore

open Entry (PartsAt)

variable {V : Type}

/-- A bucket, the key of its scores, and the members in it. -/
structure Tier (V : Type) where
  key : ScoreKey
  bucket : Entry Trie
  run : List (Entry (Scored V))

namespace Tier

/-- The bucket is kept under the bytes of its key, holds the run, and every score in the run has the key. -/
structure Good (s : Tier V) : Prop where
  label : s.bucket.key = s.key.toBytes
  holds : s.bucket.value.Holds s.run
  scored : ∀ e ∈ s.run, ScoreKey.ofScore e.value.score = .ok s.key
  filled : s.run ≠ []

/-- What reads ask of a tier. The bucket is kept under the bytes of its key, it knows the ends of its run, and the run
is in member order, with scores of that key. Which members the bucket finds makes no difference. -/
structure Fair (s : Tier V) : Prop where
  label : s.bucket.key = s.key.toBytes
  first : s.bucket.value.first = Entry.first s.run
  last : s.bucket.value.last = Entry.last s.run
  ordered : Entry.Ordered s.run
  scored : ∀ e ∈ s.run, ScoreKey.ofScore e.value.score = .ok s.key
  filled : s.run ≠ []

theorem Good.fair {s : Tier V} (h : s.Good) : s.Fair :=
  ⟨h.label, h.holds.first_eq, h.holds.last_eq, h.holds.ordered, h.scored, h.filled⟩

/-- The tier with other members in its bucket. -/
def restocked (s : Tier V) (t : Trie) (run : List (Entry (Scored V))) : Tier V :=
  ⟨s.key, { s.bucket with value := t }, run⟩

theorem Good.restocked {s : Tier V} {t : Trie} {run : List (Entry (Scored V))} (h : s.Good) (ht : t.Holds run)
    (hscored : ∀ e ∈ run, ScoreKey.ofScore e.value.score = .ok s.key) (hrun : run ≠ []) :
    (s.restocked t run).Good := ⟨h.label, ht, hscored, hrun⟩

theorem Good.partsAt_mem {s : Tier V} (hs : s.Good) {xs ys : List (Entry (Scored V))} {e : Entry (Scored V)}
    (hrun : s.run = xs ++ e :: ys) : PartsAt e.key s.run xs [e] ys := by
  have hordered := hs.holds.ordered
  rw [hrun] at hordered ⊢
  exact hordered.partsAt_mem

/-- All members on these tiers. -/
def stock (tiers : List (Tier V)) : List (Entry (Scored V)) := tiers.flatMap run

variable {tiers L R : List (Tier V)} {s : Tier V}

@[simp] theorem stock_nil : stock ([] : List (Tier V)) = [] := rfl

@[simp] theorem stock_cons (s : Tier V) (tiers : List (Tier V)) :
    stock (s :: tiers) = s.run ++ stock tiers := List.flatMap_cons

@[simp] theorem stock_append (L R : List (Tier V)) : stock (L ++ R) = stock L ++ stock R := List.flatMap_append

theorem stock_mid (L R : List (Tier V)) (s : Tier V) : stock (L ++ s :: R) = stock L ++ s.run ++ stock R := by
  rw [stock_append, stock_cons, List.append_assoc]

/-- A member in the middle of a tier in the middle of the others. -/
theorem stock_perm {xs ys : List (Entry (Scored V))} {e : Entry (Scored V)} (hrun : s.run = xs ++ e :: ys) :
    (stock (L ++ s :: R)).Perm (e :: (stock L ++ (xs ++ ys) ++ stock R)) := by
  simp only [stock_mid, hrun, List.append_assoc, List.cons_append]
  exact (List.Perm.append_left _ List.perm_middle).trans List.perm_middle

theorem mem_stock {e : Entry (Scored V)} : e ∈ stock tiers ↔ ∃ s ∈ tiers, e ∈ s.run := List.mem_flatMap

/-- No tier is empty, so there are no more tiers than members. -/
theorem length_le_stock (h : ∀ s ∈ tiers, s.Fair) : tiers.length ≤ (stock tiers).length := by
  induction tiers with
  | nil => exact Nat.le_refl _
  | cons s tiers ih =>
      have hrest := ih fun s' hs' => h s' (List.mem_cons_of_mem _ hs')
      have hrun := List.length_pos_of_ne_nil (h s List.mem_cons_self).filled
      rw [stock_cons, List.length_append, List.length_cons]
      omega

/-- The first member of all is the first member of the first tier. -/
theorem first_stock (h : ∀ s ∈ tiers, s.Fair) :
    Entry.first (stock tiers) = tiers.head?.bind fun s => s.bucket.value.first := by
  cases tiers with
  | nil => rfl
  | cons s tiers =>
      have hs := h s List.mem_cons_self
      rw [stock_cons, Entry.first_append_left hs.filled, ← hs.first]
      rfl

theorem last_stock (h : ∀ s ∈ tiers, s.Fair) :
    Entry.last (stock tiers) = tiers.getLast?.bind fun s => s.bucket.value.last := by
  rcases List.eq_nil_or_concat' tiers with rfl | ⟨init, s, rfl⟩
  · rfl
  · have hs := h s (by simp)
    rw [stock_append, stock_cons, stock_nil, List.append_nil, Entry.last_append_right hs.filled,
      ← hs.last, List.getLast?_concat]
    rfl

end Tier

/-! ## The entries next to a key -/

namespace Entry.PartsAt

variable {key : Bytes} {es xs ms ys : List (Entry V)}

/-- The nearest entry below a key is found on the way down from it. -/
theorem find?_below (h : PartsAt key es xs ms ys) :
    (along true (xs ++ ms)).find? (fun e => e.key != key) = xs.getLast? := by
  have hms : ms.reverse.find? (fun e => e.key != key) = none := by
    refine List.find?_eq_none.2 fun e he => ?_
    simp [h.here e (List.mem_reverse.1 he)]
  rw [along_true, List.reverse_append, List.find?_append, hms, Option.none_or, ← List.head?_reverse]
  cases hxs : xs.reverse with
  | nil => rfl
  | cons e rest =>
      -- on the way down the first other key is the one below
      have hmem : e ∈ xs := List.mem_reverse.1 (hxs ▸ List.mem_cons_self)
      have hne : e.key ≠ key := fun heq => List.lt_irrefl key (heq ▸ h.below e hmem)
      exact List.find?_cons_of_pos (p := fun e : Entry V => e.key != key) (bne_iff_ne.2 hne)

theorem find?_above (h : PartsAt key es xs ms ys) :
    (along false (ms ++ ys)).find? (fun e => e.key != key) = ys.head? := by
  have hms : ms.find? (fun e => e.key != key) = none := by
    refine List.find?_eq_none.2 fun e he => ?_
    simp [h.here e he]
  rw [along_false, List.find?_append, hms, Option.none_or]
  cases ys with
  | nil => rfl
  | cons e rest =>
      have hne : e.key ≠ key := fun heq => List.lt_irrefl key (heq ▸ h.above e List.mem_cons_self)
      exact List.find?_cons_of_pos (p := fun e : Entry V => e.key != key) (bne_iff_ne.2 hne)

end Entry.PartsAt

namespace ScoredSet

open Edit Tier

variable {z : ScoredSet V} {key : ScoreKey} {bs ms : List (Entry Trie)} {L R tiers : List (Tier V)}

/-- The buckets are these tiers, and the chain runs through their stock. The map of buckets takes the keys of scores,
which have eight bytes. -/
structure Tiered (z : ScoredSet V) (tiers : List (Tier V)) : Prop where
  buckets : z.buckets.Holds (tiers.map Tier.bucket)
  accepts : 8 ≤ z.buckets.keyLimit
  good : ∀ s ∈ tiers, s.Good
  chained : z.chain.Chained (stock tiers)
  live : z.chain.live = (stock tiers).length

/-- The buckets are these tiers, as far as reads can tell. -/
structure Shelved (z : ScoredSet V) (tiers : List (Tier V)) : Prop where
  buckets : z.buckets.Shows (tiers.map Tier.bucket)
  fair : ∀ s ∈ tiers, s.Fair

/-- The buckets are these tiers and the chain runs through their stock, as far as reads can tell. -/
structure Shows (z : ScoredSet V) (tiers : List (Tier V)) : Prop extends z.Shelved tiers where
  linked : z.chain.Linked (stock tiers)

theorem Tiered.shows (h : z.Tiered tiers) : z.Shows tiers :=
  ⟨⟨h.buckets.toShows, fun s hs => (h.good s hs).fair⟩, h.chained.linked⟩

/-- The map by member has no part in it. -/
theorem Tiered.withMembers (h : z.Tiered tiers) (byMember : OrderedMap (Scored V)) :
    ({ z with byMember } : ScoredSet V).Tiered tiers := ⟨h.buckets, h.accepts, h.good, h.chained, h.live⟩

/-- A key has a tier, between those of lesser keys and those of greater ones, or it falls between two. -/
theorem Tiered.present_or_absent (h : z.Tiered tiers) (key : ScoreKey) :
    (∃ L s R, s.key = key ∧ tiers = L ++ s :: R) ∨
      ∃ L R, tiers = L ++ R ∧
        PartsAt key.toBytes (tiers.map Tier.bucket) (L.map Tier.bucket) [] (R.map Tier.bucket) := by
  obtain ⟨xs, ms, ys, hp⟩ := h.buckets.trie.ordered.partsAt key.toBytes
  obtain ⟨LM, R, rfl, hLM, rfl⟩ := List.map_eq_append_iff.1 hp.parts
  obtain ⟨L, M, rfl, rfl, rfl⟩ := List.map_eq_append_iff.1 hLM
  rcases M with _ | ⟨s, _ | ⟨s', M⟩⟩
  · rw [List.append_nil] at hp ⊢
    exact Or.inr ⟨L, R, rfl, hp⟩
  · have hlabel := (h.good s (by simp)).label
    have hhere := hp.here s.bucket (by simp)
    exact Or.inl ⟨L, s, R, ScoreKey.toBytes_inj.1 (hlabel.symm.trans hhere), by simp⟩
  · -- two buckets with one key are not ordered
    have honce := hp.once
    simp at honce

/-- The buckets part at the key of any tier. -/
theorem Tiered.partsAt {s : Tier V} (h : z.Tiered (L ++ s :: R)) :
    PartsAt s.bucket.key ((L ++ s :: R).map Tier.bucket) (L.map Tier.bucket) [s.bucket] (R.map Tier.bucket) := by
  have hordered := h.buckets.trie.ordered
  rw [List.map_append, List.map_cons] at hordered ⊢
  exact hordered.partsAt_mem

/-- **The ends next to a key** are the last member below it and the first member above it. -/
theorem adjacentEnds_eq (hb : z.buckets.Holds bs)
    (hp : PartsAt key.toBytes bs (L.map Tier.bucket) ms (R.map Tier.bucket)) (hL : ∀ s ∈ L, s.Good)
    (hR : ∀ s ∈ R, s.Good) :
    z.adjacentEnds key = .ok (Entry.last (stock L), Entry.first (stock R)) := by
  -- both walks start at the key, so their test has to pass over a bucket that is there
  obtain ⟨below, hbelow, hbelow'⟩ :=
    ((hb.walkDownFrom_reads hp).covers.keeping fun k => k != key.toBytes).next_found
  obtain ⟨above, habove, habove'⟩ :=
    ((hb.walkFrom_reads hp).covers.keeping fun k => k != key.toBytes).next_found
  change below.map (fun x => x.1.item) = ((along true _).find? _).map Entry.item at hbelow'
  change above.map (fun x => x.1.item) = ((along false _).find? _).map Entry.item at habove'
  rw [hp.find?_below, List.getLast?_map, Option.map_map] at hbelow'
  rw [hp.find?_above, List.head?_map, Option.map_map] at habove'
  have hlast : (below.bind fun x => x.1.value.last) = Entry.last (stock L) := by
    have hvalue := congrArg (fun o => o.bind fun i : Bytes × Trie => i.2.last) hbelow'
    rw [Option.bind_map, Option.bind_map] at hvalue
    rw [last_stock fun s hs => (hL s hs).fair]
    exact hvalue
  have hfirst : (above.bind fun x => x.1.value.first) = Entry.first (stock R) := by
    have hvalue := congrArg (fun o => o.bind fun i : Bytes × Trie => i.2.first) habove'
    rw [Option.bind_map, Option.bind_map] at hvalue
    rw [first_stock fun s hs => (hR s hs).fair]
    exact hvalue
  rw [← hlast, ← hfirst]
  unfold adjacentEnds
  dsimp only at hbelow habove ⊢
  rw [hbelow, habove]
  rfl

/-- Linking the ends of a tier, told by the members around it. -/
theorem linkEnds_eq {s : Tier V} (hb : z.buckets.Holds ((L ++ s :: R).map Tier.bucket))
    (hgood : ∀ s' ∈ L ++ s :: R, s'.Good) :
    z.linkEnds s.key = do
      let chain ← (do
        let p ← z.chain.connect (Entry.last (stock L)) (Entry.first s.run)
        p.connect (Entry.last s.run) (Entry.first (stock R)))
      return { z with chain } := by
  have hs := hgood s (by simp)
  have hordered := hb.trie.ordered
  rw [List.map_append, List.map_cons] at hb hordered
  have hp := hordered.partsAt_mem
  rw [hs.label] at hp
  have hget := hb.get?_old hp
  have hadjacent := adjacentEnds_eq hb hp (fun s' hs' => hgood s' (List.mem_append_left _ hs'))
    fun s' hs' => hgood s' (List.mem_append_right _ (List.mem_cons_of_mem _ hs'))
  unfold linkEnds
  rw [hget, hadjacent, ← hs.holds.first_eq, ← hs.holds.last_eq]
  simp only [bind_assoc]
  rfl

/-- **Changing a bucket** changes one value of the map of buckets, and the chain. -/
theorem editBucket_yields {α : Type} {edit : Trie → Pool (Scored V) → Edit (α × Trie × Pool (Scored V))}
    {Q : α × Trie × Pool (Scored V) → Prop} {xs ys : List (Entry Trie)} {b : Entry Trie} (hb : z.buckets.Holds bs)
    (hkey : b.key = key.toBytes) (hp : PartsAt b.key bs xs [b] ys) (he : (edit b.value z.chain).Yields Q) :
    (z.editBucket key edit).Yields fun (a, t, z') =>
      Q (a, t, z'.chain) ∧ z'.byMember = z.byMember ∧ z'.buckets.keyLimit = z.buckets.keyLimit ∧
        z'.buckets.Holds (xs ++ { b with value := t } :: ys) := by
  have hget := hb.get?_old hp
  rw [hkey] at hget
  unfold editBucket
  refine Yields.bind_lift hget ?_
  refine Yields.bind he ?_
  rintro ⟨a, t, p⟩ hQ
  rw [← hkey]
  refine Yields.bind (hb.modify?_old hp fun _ => t) ?_
  rintro _ ⟨buckets, rfl, hlimit, hbuckets⟩
  exact Yields.pure ⟨hQ, rfl, hlimit, hbuckets⟩

theorem editBucket_faults {α : Type} {edit : Trie → Pool (Scored V) → Edit (α × Trie × Pool (Scored V))}
    {fault : Fault} {xs ys : List (Entry Trie)} {b : Entry Trie} (hb : z.buckets.Holds bs)
    (hkey : b.key = key.toBytes) (hp : PartsAt b.key bs xs [b] ys) (he : (edit b.value z.chain).Faults fault) :
    (z.editBucket key edit).Faults fault := by
  have hget := hb.get?_old hp
  rw [hkey] at hget
  unfold editBucket
  refine Faults.bind_lift hget ?_
  exact Faults.bind he

end ScoredSet

end OrderedStore
