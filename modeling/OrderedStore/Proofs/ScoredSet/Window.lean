import Mathlib.Tactic
import OrderedStore.Proofs.ScoredSet.Range

/-!
# A range of scores is a filter of the whole set

A range is read from the middle of the chain: a bucket tells where to start, and the walk ends at the first score
outside. What it lists is what is left of the whole walk when every member outside the bounds is taken out, for any two
bounds, in either direction, and whichever part of it is asked for.
-/

namespace OrderedStore.ScoredSet

open Tier

variable {V : Type} {z : ScoredSet V}

/-- The whole set as the rows of its walk, of which every range of scores is a part. -/
structure Windowed (z : ScoredSet V) (rows : List (Bytes × Scored V)) : Prop where
  walked : List.map Leaf.item <$> (z.walk >>= Walk.toList) = .ok rows
  members : ∀ member scored, (member, scored) ∈ rows ↔ z.get? member = .ok (some scored)
  ordered : rows.Pairwise Scored.Before
  /-- The rows that both bounds admit, turned around if that is asked for, from the offset on, as many as are asked
  for, with or without their scores. -/
  window : ∀ (min max : ScoreBound) (opts : RangeQuery),
    z.rangeBetween min max opts = .ok (opts.select (rows.filter (ScoreBound.admits min max)))
  /-- A bound that is no number admits nothing. -/
  ofNaN : ∀ (min max : ScoreBound) (opts : RangeQuery), (min.isNaN || max.isNaN) = true →
    z.rangeBetween min max opts = .ok []

/-- **A range of scores is a filter of the whole set**, for every set that calls lead to. -/
theorem windowed_of_reachable (h : z.Reachable) : ∃ rows, z.Windowed rows := by
  obtain ⟨limit, s, -, es, tiers, hz, hs⟩ := h.represents
  obtain ⟨rows, hrows, hwalk, -⟩ := hz.inOrder hs
  have hwindow : ∀ (min max : ScoreBound) (opts : RangeQuery),
      z.rangeBetween min max opts = .ok (opts.select (rows.filter (ScoreBound.admits min max))) := by
    intro min max opts
    rw [hz.rangeBetween_eq hs, hrows.eq_byScore]
  refine ⟨rows, hwalk, fun member scored => ?_, hrows.ordered, hwindow, fun min max opts hnan => ?_⟩
  · rw [hrows.mem, and_true, hz.get?_eq hs, Except.ok.injEq]
  · have hbounds : (min.isNaN || max.isNaN || max.score.below min.score) = true := by rw [hnan, Bool.true_or]
    have hnone : rows.filter (ScoreBound.admits min max) = [] :=
      List.filter_eq_nil_iff.2 fun row _ => by simp [ScoreBound.not_admits hbounds row]
    rw [hwindow, hnone, select_nil]

/-- Two members at the two zeros and one at infinity, after one of them was elsewhere. -/
def bothZeros : ScoredSet Nat :=
  afterAll perform { byMember := OrderedMap.empty (Scored Nat) 0 8, buckets := OrderedMap.empty Trie 1 } 2
    [.insertAll [(.zero, [98], 1), (.infinity, [99], 2), (.negInfinity, [97], 3)], .insert .nan [98] 4,
      .insert (.negate .zero) [97] 5]

/-- The bounds do not tell the two zeros apart, and the higher member comes first when the range is turned around. -/
theorem bothZeros_windowed :
    bothZeros.Reachable ∧ (∃ rows, bothZeros.Windowed rows) ∧
      bothZeros.rangeBetween (.exclusive .negInfinity) (.inclusive (.negate .zero))
        { reverse := true, withScores := true } = .ok [⟨[98], some .zero, 1⟩, ⟨[97], some (.negate .zero), 5⟩] := by
  have hreachable : bothZeros.Reachable := ⟨8, 0, _, 2, rfl, LeadsTo.here.afterAll 2 _⟩
  exact ⟨hreachable, windowed_of_reachable hreachable, by decide +kernel⟩

end OrderedStore.ScoredSet
