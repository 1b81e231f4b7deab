import Mathlib.Tactic
import OrderedStore.Proofs.ScoredSet.Refines

/-!
# The members by score

What a scored set lists in score order can be computed from its finite map by sorting: by score and then by
member. No other list enumerates the members in that order, so the walk reads the sorted list.
-/

namespace OrderedStore

variable {V : Type}

namespace Scored

/-- Whether a row may stand before another one: its score is the lesser number, or the same and its member is not
the greater one. -/
def upTo (a b : Bytes × Scored V) : Bool :=
  decide (a.2.score.rank < b.2.score.rank ∨ a.2.score.rank = b.2.score.rank ∧ a.1 ≤ b.1)

theorem upTo_trans (a b c : Bytes × Scored V) (hab : upTo a b = true) (hbc : upTo b c = true) :
    upTo a c = true := by
  unfold upTo at hab hbc ⊢
  rw [decide_eq_true_eq] at hab hbc ⊢
  rcases hab with hab | ⟨hab, hle⟩
  · rcases hbc with hbc | ⟨hbc, -⟩
    · exact Or.inl (hab.trans hbc)
    · exact Or.inl (hbc ▸ hab)
  · rcases hbc with hbc | ⟨hbc, hle'⟩
    · exact Or.inl (hab ▸ hbc)
    · exact Or.inr ⟨hab.trans hbc, List.le_trans hle hle'⟩

theorem upTo_total (a b : Bytes × Scored V) : (upTo a b || upTo b a) = true := by
  unfold upTo
  rw [Bool.or_eq_true, decide_eq_true_eq, decide_eq_true_eq]
  rcases Int.lt_trichotomy a.2.score.rank b.2.score.rank with hlt | heq | hgt
  · exact Or.inl (Or.inl hlt)
  · rcases List.le_total a.1 b.1 with hle | hle
    · exact Or.inl (Or.inr ⟨heq, hle⟩)
    · exact Or.inr (Or.inr ⟨heq.symm, hle⟩)
  · exact Or.inr (Or.inl hgt)

theorem upTo_antisymm {a b : Bytes × Scored V} (hab : upTo a b = true) (hba : upTo b a = true) : a.1 = b.1 := by
  unfold upTo at hab hba
  rw [decide_eq_true_eq] at hab hba
  rcases hab with hab | ⟨hab, hle⟩
  · rcases hba with hba | ⟨hba, -⟩ <;> omega
  · rcases hba with hba | ⟨-, hle'⟩
    · omega
    · exact List.le_antisymm hle hle'

/-- Score order of numbers is the order of ranks. -/
theorem Before.upTo {a b : Bytes × Scored V} (h : Before a b) : upTo a b = true := by
  unfold Before Binary64.below Binary64.same at h
  unfold Scored.upTo
  rw [decide_eq_true_eq]
  rcases h with h | ⟨h, hlt⟩
  · simp only [Bool.and_eq_true, decide_eq_true_eq] at h
    exact Or.inl h.2
  · simp only [Bool.and_eq_true, beq_iff_eq] at h
    exact Or.inr ⟨h.2, Std.le_of_lt hlt⟩

theorem before_irrefl (a : Bytes × Scored V) : ¬ Before a a := by
  unfold Before Binary64.below
  simp

end Scored

namespace FiniteMap

/-- The members with their scores and payloads, by score and then by member. -/
def byScore (s : FiniteMap (Scored V)) : List (Bytes × Scored V) := s.byKey.mergeSort Scored.upTo

/-- **What enumerates the members in score order** is the sorted list. -/
theorem Enumerates.eq_byScore {s : FiniteMap (Scored V)} {rows : List (Bytes × Scored V)}
    (h : s.Enumerates Scored.Before (fun _ => True) rows) : rows = s.byScore := by
  have hperm : rows.Perm s.byScore := by
    refine List.Perm.trans ?_ (List.mergeSort_perm s.byKey Scored.upTo).symm
    exact h.perm s.byKey_enumerates Scored.before_irrefl fun a => List.lt_irrefl a.1
  have hsorted : rows.Pairwise fun a b => Scored.upTo a b = true := h.ordered.imp Scored.Before.upTo
  refine List.Perm.eq_of_pairwise ?_ hsorted (List.pairwise_mergeSort Scored.upTo_trans Scored.upTo_total _) hperm
  -- two rows with one member are one row
  intro a b ha hb hab hba
  have hkey := Scored.upTo_antisymm hab hba
  have hvalue := ((h.mem a.1 a.2).1 ha).1
  have hvalue' := ((h.mem b.1 b.2).1 (hperm.mem_iff.2 hb)).1
  rw [← hkey, hvalue] at hvalue'
  exact Prod.ext hkey (Option.some.inj hvalue')

end FiniteMap

namespace ScoredSet

open Tier

variable {z : ScoredSet V} {es : List (Entry (Scored V))} {tiers : List (Tier V)} {s : FiniteMap (Scored V)}

/-- **The stock is the members by score.** -/
theorem Holds.stock_eq (h : z.Holds es tiers) (hs : s.Lists es) : (stock tiers).map Entry.item = s.byScore := by
  refine FiniteMap.Enumerates.eq_byScore ⟨h.tiered.shows.stock_ordered, fun key a => ?_⟩
  rw [and_true]
  exact (h.value_iff hs).symm

/-- **A range under some bytes**, computed from the finite map. -/
theorem Holds.rangeUnder_eq (h : z.Holds es tiers) (hs : s.Lists es) (start : Bytes) (opts : RangeQuery) :
    z.rangeUnder start opts = .ok (opts.select (s.byKey.filter fun row => start <+: row.1)) := by
  obtain ⟨rows, hrows, hrange⟩ := h.under hs start
  have hkept := s.byKey_enumerates.filter (start <+: ·)
  rw [hrange opts, FiniteMap.Enumerates.unique hrows hkept fun a b hab hba => List.lt_asymm hab hba]

end ScoredSet

end OrderedStore
