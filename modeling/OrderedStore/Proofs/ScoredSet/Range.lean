import Mathlib.Tactic
import OrderedStore.Proofs.ScoredSet.Rows

/-!
# Ranges of scores

A range of scores starts at the bucket of its first bound and runs along the chain until a score leaves it. The
stock is in score order, so what the start passes over and what the end cuts off is just what the bounds do not
admit: a range is the stock filtered by its bounds. Bounds that are no numbers, or that leave nothing between
them, admit nothing, and so need no exception.
-/

namespace OrderedStore

variable {V α : Type}

/-- If a test, once passed, is passed from there on, dropping what fails it at first drops all that fails it. -/
theorem dropWhile_eq_filter {r : α → α → Prop} {p : α → Bool} {l : List α} (h : l.Pairwise r)
    (hp : ∀ a b, r a b → p a = true → p b = true) : l.dropWhile (fun a => !p a) = l.filter p := by
  induction l with
  | nil => rfl
  | cons a l ih =>
      rw [List.pairwise_cons] at h
      cases hpa : p a with
      | false => rw [List.dropWhile_cons_of_pos (by rw [hpa]; rfl), List.filter_cons_of_neg (by rw [hpa]; simp), ih h.2]
      | true =>
          have hrest : l.filter p = l := List.filter_eq_self.2 fun b hb => hp a b (h.1 b hb) hpa
          rw [List.dropWhile_cons_of_neg (by rw [hpa]; simp), List.filter_cons_of_pos hpa, hrest]

/-- If a test, once failed, is failed from there on, taking what passes it at first takes all that passes it. -/
theorem takeWhile_eq_filter {r : α → α → Prop} {p : α → Bool} {l : List α} (h : l.Pairwise r)
    (hp : ∀ a b, r a b → p b = true → p a = true) : l.takeWhile p = l.filter p := by
  induction l with
  | nil => rfl
  | cons a l ih =>
      rw [List.pairwise_cons] at h
      cases hpa : p a with
      | true => rw [List.takeWhile_cons_of_pos hpa, List.filter_cons_of_pos hpa, ih h.2]
      | false =>
          have hrest : l.filter p = [] := by
            refine List.filter_eq_nil_iff.2 fun b hb hpb => ?_
            rw [hp a b (h.1 b hb) hpb] at hpa
            cases hpa
          rw [List.takeWhile_cons_of_neg (by rw [hpa]; simp), List.filter_cons_of_neg (by rw [hpa]; simp), hrest]

namespace ScoreBound

/-- Whether the score of a row lies between two bounds. -/
def admits (min max : ScoreBound) (row : Bytes × Scored V) : Bool :=
  min.admitsAbove row.2.score && max.admitsBelow row.2.score

/-- What lies above a bound still does when the score rises. -/
theorem admitsAbove_mono {min : ScoreBound} {a b : Bytes × Scored V} (h : Scored.Before a b)
    (ha : min.admitsAbove a.2.score = true) : min.admitsAbove b.2.score = true := by
  unfold Scored.Before Binary64.below Binary64.same at h
  cases min <;>
    simp only [admitsAbove, Binary64.atMost, Binary64.below, Bool.and_eq_true, decide_eq_true_eq,
      beq_iff_eq] at h ha ⊢ <;>
    rcases h with h | ⟨h, -⟩ <;> exact ⟨⟨ha.1.1, h.1.2⟩, by omega⟩

theorem admitsBelow_mono {max : ScoreBound} {a b : Bytes × Scored V} (h : Scored.Before a b)
    (hb : max.admitsBelow b.2.score = true) : max.admitsBelow a.2.score = true := by
  unfold Scored.Before Binary64.below Binary64.same at h
  cases max <;>
    simp only [admitsBelow, Binary64.atMost, Binary64.below, Bool.and_eq_true, decide_eq_true_eq,
      beq_iff_eq] at h hb ⊢ <;>
    rcases h with h | ⟨h, -⟩ <;> exact ⟨⟨h.1.1, hb.1.2⟩, by omega⟩

theorem not_admitsAbove_of_lt {min : ScoreBound} {x : Binary64} (h : x.rank < min.score.rank) :
    min.admitsAbove x = false := by
  cases min <;> simp only [score] at h <;>
    simp only [admitsAbove, Binary64.atMost, Binary64.below, Bool.and_eq_false_iff, decide_eq_false_iff_not] <;>
    exact Or.inr (by omega)

theorem not_admitsBelow_of_lt {max : ScoreBound} {x : Binary64} (h : max.score.rank < x.rank) :
    max.admitsBelow x = false := by
  cases max <;> simp only [score] at h <;>
    simp only [admitsBelow, Binary64.atMost, Binary64.below, Bool.and_eq_false_iff, decide_eq_false_iff_not] <;>
    exact Or.inr (by omega)

/-- Bounds that are no numbers, or that leave nothing between them, admit no score. -/
theorem not_admits {min max : ScoreBound} (h : (min.isNaN || max.isNaN || max.score.below min.score) = true)
    (row : Bytes × Scored V) : admits min max row = false := by
  rw [Bool.eq_false_iff]
  intro hrow
  unfold admits at hrow
  rw [Bool.or_eq_true, Bool.or_eq_true] at h
  rcases h with (h | h) | h
  · cases min <;> simp_all [isNaN, score, admitsAbove, Binary64.atMost, Binary64.below]
  · cases max <;> simp_all [isNaN, score, admitsBelow, Binary64.atMost, Binary64.below]
  · cases min <;> cases max <;> dsimp only [score] at h <;>
      simp only [admitsAbove, admitsBelow, Binary64.atMost, Binary64.below, Bool.and_eq_true,
        decide_eq_true_eq] at h hrow <;> omega

end ScoreBound

namespace ScoredSet

open Tier
open Entry (PartsAt)

variable {z : ScoredSet V} {tiers L M R : List (Tier V)} {es : List (Entry (Scored V))} {s : FiniteMap (Scored V)}
  {min max : ScoreBound} {opts : RangeQuery}

/-- A tier below the key of a number has lesser scores. -/
theorem rank_lt_of_key_lt {t : Tier V} (ht : t.Fair) {x : Binary64} (hlt : t.bucket.key < (ScoreKey.ofNumber x).toBytes)
    {e : Entry (Scored V)} (he : e ∈ t.run) : e.value.score.rank < x.rank := by
  obtain ⟨-, hkey⟩ := ScoreKey.ofScore_eq_ok_iff.1 (ht.scored e he)
  rw [ht.label, ← hkey] at hlt
  exact ScoreKey.ofNumber_lt_iff.1 hlt

theorem lt_rank_of_lt_key {t : Tier V} (ht : t.Fair) {x : Binary64} (hlt : (ScoreKey.ofNumber x).toBytes < t.bucket.key)
    {e : Entry (Scored V)} (he : e ∈ t.run) : x.rank < e.value.score.rank := by
  obtain ⟨-, hkey⟩ := ScoreKey.ofScore_eq_ok_iff.1 (ht.scored e he)
  rw [ht.label, ← hkey] at hlt
  exact ScoreKey.ofNumber_lt_iff.1 hlt

/-- The tiers below a key, and the others, which the walk up from the key reads. -/
theorem Shelved.walkFrom_tiers (h : z.Shelved tiers) (key : Bytes) :
    ∃ L M, tiers = L ++ M ∧ (∀ t ∈ L, t.bucket.key < key) ∧ (z.buckets.walkFrom key).Reads false (M.map Tier.bucket) := by
  obtain ⟨xs, ms, ys, hp⟩ := h.buckets.trie.ordered.partsAt key
  have hreads := h.buckets.walkFrom_reads hp
  have hparts := hp.parts
  rw [List.append_assoc] at hparts
  obtain ⟨L, M, rfl, rfl, hM⟩ := List.map_eq_append_iff.1 hparts
  exact ⟨L, M, rfl, fun t ht => hp.below _ (List.mem_map_of_mem ht), hM ▸ hreads⟩

/-- The tiers above a key, and the others, which the walk down from the key reads. -/
theorem Shelved.walkDownFrom_tiers (h : z.Shelved tiers) (key : Bytes) :
    ∃ M R, tiers = M ++ R ∧ (∀ t ∈ R, key < t.bucket.key) ∧
      (z.buckets.walkDownFrom key).Reads true (M.map Tier.bucket) := by
  obtain ⟨xs, ms, ys, hp⟩ := h.buckets.trie.ordered.partsAt key
  have hreads := h.buckets.walkDownFrom_reads hp
  obtain ⟨M, R, rfl, hM, rfl⟩ := List.map_eq_append_iff.1 hp.parts
  exact ⟨M, R, rfl, fun t ht => hp.above _ (List.mem_map_of_mem ht), hM ▸ hreads⟩

/-- What is met behind the start of a range and before its end. -/
theorem filter_rising {rows : List (Bytes × Scored V)} (h : rows.Pairwise Scored.Before) :
    (rows.dropWhile (fun row => !min.admitsAbove row.2.score)).takeWhile (fun row => max.admitsBelow row.2.score) =
      rows.filter (ScoreBound.admits min max) := by
  rw [dropWhile_eq_filter h fun _ _ hab => ScoreBound.admitsAbove_mono hab,
    takeWhile_eq_filter (h.filter _) fun _ _ hab => ScoreBound.admitsBelow_mono hab, List.filter_filter]
  exact List.filter_congr fun row _ => Bool.and_comm _ _

theorem filter_falling {rows : List (Bytes × Scored V)} (h : rows.Pairwise Scored.Before) :
    (rows.reverse.dropWhile (fun row => !max.admitsBelow row.2.score)).takeWhile
        (fun row => min.admitsAbove row.2.score) =
      (rows.filter (ScoreBound.admits min max)).reverse := by
  have h' : rows.reverse.Pairwise fun a b => Scored.Before b a := List.pairwise_reverse.2 h
  rw [dropWhile_eq_filter h' fun _ _ hab => ScoreBound.admitsBelow_mono hab,
    takeWhile_eq_filter (h'.filter _) fun _ _ hab => ScoreBound.admitsAbove_mono hab, List.filter_filter,
    List.filter_reverse]
  rfl

/-- The part of the stock between two bounds. -/
def between (min max : ScoreBound) (tiers : List (Tier V)) : List (Bytes × Scored V) :=
  ((stock tiers).map Entry.item).filter (ScoreBound.admits min max)

theorem between_append : between min max (L ++ M) = between min max L ++ between min max M := by
  unfold between
  rw [stock_append, List.map_append, List.filter_append]

theorem between_eq_nil (h : ∀ e ∈ stock L, ScoreBound.admits min max e.item = false) : between min max L = [] := by
  refine List.filter_eq_nil_iff.2 fun row hrow => ?_
  obtain ⟨e, he, rfl⟩ := List.mem_map.1 hrow
  rw [h e he]
  exact Bool.false_ne_true

theorem select_nil : opts.select ([] : List (Bytes × Scored V)) = [] := by
  unfold RangeQuery.select
  cases opts.count <;> cases opts.reverse <;> simp

/-- The walk over a stretch of tiers, in either direction. -/
theorem Shows.walkBetween_reads (h : z.Shows (L ++ M ++ R)) (hM : stock M ≠ []) :
    (z.walkBetween (Entry.first (stock M)) (Entry.last (stock M))).Reads false (stock M) := by
  have hc := h.linked
  rw [stock_append, stock_append] at hc
  exact ⟨Walk.covers_between hc (fun _ => ⟨rfl, rfl⟩) fun hnil => absurd hnil hM, rfl, fun _ => rfl⟩

/-- What a page of a walk over some tiers shows, from where one test is passed to where another one fails. -/
theorem page_walk {w : Walk (Scored V)} {run : List (Entry (Scored V))} {p q : Bytes × Scored V → Bool}
    {rows : List (Bytes × Scored V)} (hw : w.Reads opts.reverse run)
    (hrows : (((along opts.reverse run).map Entry.item).dropWhile (fun row => !p row)).takeWhile q =
      along opts.reverse rows) :
    page opts (((w.trace (pageSteps opts w)).dropWhile (fun leaf => !p leaf.item)).takeWhile fun leaf => q leaf.item) =
      .ok (opts.select rows) := by
  have hsteps : run.length < pageSteps opts w := by
    have hfuel := hw.covers.length_lt_fuel
    unfold pageSteps
    omega
  obtain ⟨leaves, htrace, hitems⟩ := hw.trace hsteps
  rw [htrace, Trace.dropWhile_ofList, Trace.takeWhile_ofList]
  refine page_ofList opts _ ?_
  rw [← hrows, ← hitems, List.dropWhile_map, List.takeWhile_map]
  rfl

/-- Going up, from the bucket of the lower bound. -/
theorem Shows.rangeBetween_up (h : z.Shows tiers) (hne : tiers ≠ []) (hup : opts.reverse = false)
    (hbounds : ¬ (min.isNaN || max.isNaN || max.score.below min.score) = true) :
    z.rangeBetween min max opts = .ok (opts.select (between min max tiers)) := by
  obtain ⟨a, b, -, hb, hends⟩ := h.ends?_eq hne
  have hnumber : min.score.isNaN = false := by
    simp only [Bool.or_eq_true, not_or, Bool.not_eq_true] at hbounds
    exact hbounds.1.1
  have hkey : ScoreKey.ofScore min.score = .ok (.ofNumber min.score) := ScoreKey.ofScore_eq_ok_iff.2 ⟨hnumber, rfl⟩
  obtain ⟨L, M, rfl, hL, hreads⟩ := h.walkFrom_tiers (ScoreKey.ofNumber min.score).toBytes
  -- nothing below the bucket of the lower bound is in the range
  have hbelow : between min max L = [] := by
    refine between_eq_nil fun e he => ?_
    obtain ⟨t, ht, hrun⟩ := mem_stock.1 he
    have hrank := rank_lt_of_key_lt (h.fair t (List.mem_append_left M ht)) (hL t ht) hrun
    exact Bool.and_eq_false_iff.2 (Or.inl (ScoreBound.not_admitsAbove_of_lt hrank))
  obtain ⟨met, hmet, hitem⟩ := hreads.next
  unfold rangeBetween
  rw [hends]
  dsimp only [bind, Except.bind]
  rw [if_neg hbounds, if_neg (by rw [hup]; simp), hkey, between_append, hbelow, List.nil_append]
  dsimp only [bind, Except.bind]
  rw [hmet]
  rw [along_false] at hitem
  cases M with
  | nil =>
      obtain rfl : met = none := by simpa using hitem
      show Except.ok [] = _
      rw [between_eq_nil (by simp), select_nil]
  | cons t M =>
      obtain ⟨⟨leaf, rest⟩, rfl, hleaf⟩ := Option.map_eq_some_iff.1 hitem
      have hvalue : leaf.value = t.bucket.value := congrArg Prod.snd hleaf
      have ht := h.fair t (by simp)
      have hfilled : stock (t :: M) ≠ [] := by simp [ht.filled]
      have hfirst : leaf.value.first = Entry.first (stock (t :: M)) := by
        rw [hvalue, ht.first, stock_cons, Entry.first_append_left ht.filled]
      have hlast : some b = Entry.last (stock (t :: M)) := by
        rw [← hb, stock_append, Entry.last_append_right hfilled]
      have hordered := h.stock_ordered
      rw [stock_append, List.map_append] at hordered
      have hwalk := Shows.walkBetween_reads (R := []) (by rwa [List.append_nil]) hfilled
      rw [← hup] at hwalk
      dsimp only
      rw [hfirst, hlast]
      refine page_walk (p := fun row => min.admitsAbove row.2.score) (q := fun row => max.admitsBelow row.2.score)
        hwalk ?_
      rw [hup, along_false, along_false]
      exact filter_rising (List.pairwise_append.1 hordered).2.1

/-- Going down, from the bucket of the upper bound. -/
theorem Shows.rangeBetween_down (h : z.Shows tiers) (hne : tiers ≠ []) (hdown : opts.reverse = true)
    (hbounds : ¬ (min.isNaN || max.isNaN || max.score.below min.score) = true) :
    z.rangeBetween min max opts = .ok (opts.select (between min max tiers)) := by
  obtain ⟨a, b, ha, -, hends⟩ := h.ends?_eq hne
  have hnumber : max.score.isNaN = false := by
    simp only [Bool.or_eq_true, not_or, Bool.not_eq_true] at hbounds
    exact hbounds.1.2
  have hkey : ScoreKey.ofScore max.score = .ok (.ofNumber max.score) := ScoreKey.ofScore_eq_ok_iff.2 ⟨hnumber, rfl⟩
  obtain ⟨M, R, rfl, hR, hreads⟩ := h.walkDownFrom_tiers (ScoreKey.ofNumber max.score).toBytes
  -- nothing above the bucket of the upper bound is in the range
  have habove : between min max R = [] := by
    refine between_eq_nil fun e he => ?_
    obtain ⟨t, ht, hrun⟩ := mem_stock.1 he
    have hrank := lt_rank_of_lt_key (h.fair t (List.mem_append_right M ht)) (hR t ht) hrun
    exact Bool.and_eq_false_iff.2 (Or.inr (ScoreBound.not_admitsBelow_of_lt hrank))
  obtain ⟨met, hmet, hitem⟩ := hreads.next
  unfold rangeBetween
  rw [hends]
  dsimp only [bind, Except.bind]
  rw [if_neg hbounds, if_pos hdown, hkey, between_append, habove, List.append_nil]
  dsimp only [bind, Except.bind]
  rw [hmet]
  rw [along_true, List.head?_reverse] at hitem
  rcases List.eq_nil_or_concat' M with rfl | ⟨M, t, rfl⟩
  · obtain rfl : met = none := by simpa using hitem
    show Except.ok [] = _
    rw [between_eq_nil (by simp), select_nil]
  · rw [List.map_append, List.map_singleton, List.getLast?_concat] at hitem
    obtain ⟨⟨leaf, rest⟩, rfl, hleaf⟩ := Option.map_eq_some_iff.1 hitem
    have hvalue : leaf.value = t.bucket.value := congrArg Prod.snd hleaf
    have ht := h.fair t (by simp)
    have hfilled : stock (M ++ [t]) ≠ [] := by simp [ht.filled]
    have hfirst : some a = Entry.first (stock (M ++ [t])) := by
      rw [← ha, stock_append, Entry.first_append_left hfilled]
    have hlast : leaf.value.last = Entry.last (stock (M ++ [t])) := by
      rw [hvalue, ht.last, stock_append, stock_cons, stock_nil, List.append_nil,
        Entry.last_append_right ht.filled]
    have hordered := h.stock_ordered
    rw [stock_append, List.map_append] at hordered
    have hwalk := (Shows.walkBetween_reads (L := []) h hfilled).reverse
    rw [Bool.not_false, ← hdown] at hwalk
    dsimp only
    rw [hfirst, hlast]
    refine page_walk (p := fun row => max.admitsBelow row.2.score) (q := fun row => min.admitsAbove row.2.score)
      hwalk ?_
    rw [hdown, along_true, along_true, List.map_reverse]
    exact filter_falling (List.pairwise_append.1 hordered).1

/-- A range between two bounds is the asked part of the stock between them. -/
theorem Shows.rangeBetween_eq (h : z.Shows tiers) (min max : ScoreBound) (opts : RangeQuery) :
    z.rangeBetween min max opts = .ok (opts.select (between min max tiers)) := by
  by_cases hne : tiers = []
  · subst hne
    unfold rangeBetween
    rw [h.ends?_nil, between_eq_nil (by simp), select_nil]
    rfl
  · by_cases hbounds : (min.isNaN || max.isNaN || max.score.below min.score) = true
    · obtain ⟨a, b, -, -, hends⟩ := h.ends?_eq hne
      unfold rangeBetween
      rw [hends]
      dsimp only [bind, Except.bind]
      rw [if_pos hbounds, between_eq_nil fun e _ => ScoreBound.not_admits hbounds e.item, select_nil]
      rfl
    · cases hdirection : opts.reverse with
      | false => exact h.rangeBetween_up hne hdirection hbounds
      | true => exact h.rangeBetween_down hne hdirection hbounds

/-- **A range between two bounds** is the asked part of the members that the bounds admit, in score order. -/
theorem Holds.rangeBetween_eq (h : z.Holds es tiers) (hs : s.Lists es) (min max : ScoreBound) (opts : RangeQuery) :
    z.rangeBetween min max opts = .ok (opts.select (s.byScore.filter (ScoreBound.admits min max))) := by
  rw [← h.stock_eq hs]
  exact h.tiered.shows.rangeBetween_eq min max opts

end ScoredSet

end OrderedStore
