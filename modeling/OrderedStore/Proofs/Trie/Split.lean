import Mathlib.Tactic
import OrderedStore.Bytes

/-!
# Splitting a sorted listing at a key

A trie is read as a listing: keys in order, each with what is held for it. A search or a write for one key
parts such a listing into what lies below the key, what lies at it, and what lies above it. A descent
narrows the listing from both sides and shortens the keys, and the parts follow along.
-/

namespace OrderedStore

namespace Bytes

theorem append_lt_append_iff (s a b : Bytes) : s ++ a < s ++ b ↔ a < b := by
  induction s with
  | nil => rfl
  | cons x s ih => simp [ih]

theorem lt_of_append (s a : Bytes) (h : a ≠ []) : s < s ++ a := by
  obtain ⟨b, a, rfl⟩ := List.exists_cons_of_ne_nil h
  have := (append_lt_append_iff s [] (b :: a)).2 (List.nil_lt_cons b a)
  rwa [List.append_nil] at this

/-- A string never comes before its own beginning. -/
theorem not_append_lt (s a : Bytes) : ¬ s ++ a < s := by
  intro h
  have := (append_lt_append_iff s a []).1 (by rwa [List.append_nil])
  exact List.not_lt_nil a this

end Bytes

variable {α : Type}

/-- Keys ascend strictly. -/
def Sorted (l : List (Bytes × α)) : Prop := l.Pairwise fun a b => a.1 < b.1

/-- The listing behind a segment: every key gets it in front. -/
def under (segment : Bytes) (l : List (Bytes × α)) : List (Bytes × α) :=
  l.map fun x => (segment ++ x.1, x.2)

@[simp] theorem under_nil (segment : Bytes) : under segment ([] : List (Bytes × α)) = [] := rfl

@[simp] theorem under_cons (segment : Bytes) (x : Bytes × α) (l : List (Bytes × α)) :
    under segment (x :: l) = (segment ++ x.1, x.2) :: under segment l := rfl

@[simp] theorem under_append (segment : Bytes) (l r : List (Bytes × α)) :
    under segment (l ++ r) = under segment l ++ under segment r := List.map_append

theorem under_under (s t : Bytes) (l : List (Bytes × α)) : under s (under t l) = under (s ++ t) l := by
  simp [under]

theorem under_empty (l : List (Bytes × α)) : under [] l = l := by
  simp [under]

theorem mem_under {segment : Bytes} {x : Bytes × α} {l : List (Bytes × α)} :
    x ∈ under segment l ↔ ∃ y ∈ l, (segment ++ y.1, y.2) = x := List.mem_map

theorem Sorted.under {l : List (Bytes × α)} (h : Sorted l) (segment : Bytes) : Sorted (under segment l) := by
  refine List.pairwise_map.2 (List.Pairwise.imp ?_ h)
  exact fun hlt => (Bytes.append_lt_append_iff segment _ _).2 hlt

/-- The parts of a listing below a key, at it and above it. -/
structure SplitsAt (key : Bytes) (l below here above : List (Bytes × α)) : Prop where
  parts : l = below ++ here ++ above
  below : ∀ x ∈ below, x.1 < key
  here : ∀ x ∈ here, x.1 = key
  above : ∀ x ∈ above, key < x.1

namespace SplitsAt

variable {key : Bytes} {l xs ms ys xs' ms' ys' : List (Bytes × α)}

/-- The part below a key is what its own test selects. -/
theorem below_eq (h : SplitsAt key l xs ms ys) : xs = l.filter fun x => x.1 < key := by
  have hms : ms.filter (fun x => x.1 < key) = [] := by
    refine List.filter_eq_nil_iff.2 fun x hx => ?_
    rw [decide_eq_true_eq, h.here x hx]
    exact List.lt_irrefl key
  have hys : ys.filter (fun x => x.1 < key) = [] := by
    refine List.filter_eq_nil_iff.2 fun x hx => ?_
    rw [decide_eq_true_eq]
    exact List.lt_asymm (h.above x hx)
  rw [h.parts, List.filter_append, List.filter_append, hms, hys,
    List.filter_eq_self.2 fun x hx => decide_eq_true (h.below x hx), List.append_nil, List.append_nil]

theorem above_eq (h : SplitsAt key l xs ms ys) : ys = l.filter fun x => key < x.1 := by
  have hms : ms.filter (fun x => key < x.1) = [] := by
    refine List.filter_eq_nil_iff.2 fun x hx => ?_
    rw [decide_eq_true_eq, h.here x hx]
    exact List.lt_irrefl key
  have hxs : xs.filter (fun x => key < x.1) = [] := by
    refine List.filter_eq_nil_iff.2 fun x hx => ?_
    rw [decide_eq_true_eq]
    exact List.lt_asymm (h.below x hx)
  rw [h.parts, List.filter_append, List.filter_append, hms, hxs,
    List.filter_eq_self.2 fun x hx => decide_eq_true (h.above x hx), List.nil_append, List.nil_append]

/-- **A listing splits at a key in one way only.** -/
theorem unique (h : SplitsAt key l xs ms ys) (h' : SplitsAt key l xs' ms' ys') :
    xs = xs' ∧ ms = ms' ∧ ys = ys' := by
  have hx : xs = xs' := h.below_eq.trans h'.below_eq.symm
  have hy : ys = ys' := h.above_eq.trans h'.above_eq.symm
  subst hx
  subst hy
  -- with both sides fixed by their own tests, the middle is what is left
  have hp := h.parts.symm.trans h'.parts
  exact ⟨rfl, List.append_cancel_left (List.append_cancel_right hp), rfl⟩

/-- A descent: the keys get longer again and what was passed by is put back on either side. -/
theorem widen {segment rest : Bytes} {left right : List (Bytes × α)} (h : SplitsAt rest l xs ms ys)
    (hleft : ∀ x ∈ left, x.1 < segment ++ rest) (hright : ∀ x ∈ right, segment ++ rest < x.1) :
    SplitsAt (segment ++ rest) (left ++ OrderedStore.under segment l ++ right)
      (left ++ OrderedStore.under segment xs) (OrderedStore.under segment ms)
      (OrderedStore.under segment ys ++ right) where
  parts := by
    rw [h.parts, under_append, under_append]
    simp only [List.append_assoc]
  below := by
    intro x hx
    rcases List.mem_append.1 hx with hx | hx
    · exact hleft x hx
    · obtain ⟨y, hy, rfl⟩ := mem_under.1 hx
      exact (Bytes.append_lt_append_iff segment _ _).2 (h.below y hy)
  here := by
    intro x hx
    obtain ⟨y, hy, rfl⟩ := mem_under.1 hx
    exact congrArg (segment ++ ·) (h.here y hy)
  above := by
    intro x hx
    rcases List.mem_append.1 hx with hx | hx
    · obtain ⟨y, hy, rfl⟩ := mem_under.1 hx
      exact (Bytes.append_lt_append_iff segment _ _).2 (h.above y hy)
    · exact hright x hx

end SplitsAt

/-- The parts of a listing before the keys that start with some bytes, those keys, and the rest. -/
structure SplitsUnder (start : Bytes) (l before within after : List (Bytes × α)) : Prop where
  parts : l = before ++ within ++ after
  before : ∀ x ∈ before, x.1 < start
  within : ∀ x ∈ within, start <+: x.1
  after : ∀ x ∈ after, start < x.1 ∧ ¬ start <+: x.1

namespace SplitsUnder

variable {start : Bytes} {l xs ms ys xs' ms' ys' : List (Bytes × α)}

theorem not_starts_before (h : SplitsUnder start l xs ms ys) : ∀ x ∈ xs, ¬ start <+: x.1 := by
  rintro x hx ⟨t, ht⟩
  have hlt := h.before x hx
  rw [← ht] at hlt
  exact Bytes.not_append_lt start t hlt

/-- The part within is what its own test selects. -/
theorem within_eq (h : SplitsUnder start l xs ms ys) : ms = l.filter fun x => start <+: x.1 := by
  have hxs : xs.filter (fun x => start <+: x.1) = [] :=
    List.filter_eq_nil_iff.2 fun x hx => by simpa using h.not_starts_before x hx
  have hys : ys.filter (fun x => start <+: x.1) = [] :=
    List.filter_eq_nil_iff.2 fun x hx => by simpa using (h.after x hx).2
  rw [h.parts, List.filter_append, List.filter_append, hxs, hys,
    List.filter_eq_self.2 fun x hx => decide_eq_true (h.within x hx), List.nil_append, List.append_nil]

/-- What is not within is what the opposite test selects. -/
theorem rest_eq (h : SplitsUnder start l xs ms ys) : xs ++ ys = l.filter fun x => ¬ start <+: x.1 := by
  have hms : ms.filter (fun x => ¬ start <+: x.1) = [] :=
    List.filter_eq_nil_iff.2 fun x hx => by simpa using h.within x hx
  rw [h.parts, List.filter_append, List.filter_append, hms,
    List.filter_eq_self.2 fun x hx => decide_eq_true (h.not_starts_before x hx),
    List.filter_eq_self.2 fun x hx => decide_eq_true (h.after x hx).2, List.append_nil]

theorem before_eq (h : SplitsUnder start l xs ms ys) : xs = l.filter fun x => x.1 < start := by
  have hms : ms.filter (fun x => x.1 < start) = [] := by
    refine List.filter_eq_nil_iff.2 fun x hx => ?_
    obtain ⟨t, ht⟩ := h.within x hx
    rw [decide_eq_true_eq, ← ht]
    exact Bytes.not_append_lt start t
  have hys : ys.filter (fun x => x.1 < start) = [] := by
    refine List.filter_eq_nil_iff.2 fun x hx => ?_
    rw [decide_eq_true_eq]
    exact List.lt_asymm (h.after x hx).1
  rw [h.parts, List.filter_append, List.filter_append, hms, hys,
    List.filter_eq_self.2 fun x hx => decide_eq_true (h.before x hx), List.append_nil, List.append_nil]

/-- **A listing splits under some bytes in one way only.** -/
theorem unique (h : SplitsUnder start l xs ms ys) (h' : SplitsUnder start l xs' ms' ys') :
    xs = xs' ∧ ms = ms' ∧ ys = ys' := by
  have hx : xs = xs' := h.before_eq.trans h'.before_eq.symm
  have hm : ms = ms' := h.within_eq.trans h'.within_eq.symm
  subst hx
  subst hm
  have hp := h.parts.symm.trans h'.parts
  exact ⟨rfl, rfl, List.append_cancel_left hp⟩

/-- A descent, as for a single key. -/
theorem widen {segment rest : Bytes} {left right : List (Bytes × α)} (h : SplitsUnder rest l xs ms ys)
    (hleft : ∀ x ∈ left, x.1 < segment ++ rest)
    (hright : ∀ x ∈ right, segment ++ rest < x.1 ∧ ¬ segment ++ rest <+: x.1) :
    SplitsUnder (segment ++ rest) (left ++ OrderedStore.under segment l ++ right)
      (left ++ OrderedStore.under segment xs) (OrderedStore.under segment ms)
      (OrderedStore.under segment ys ++ right) where
  parts := by
    rw [h.parts, under_append, under_append]
    simp only [List.append_assoc]
  before := by
    intro x hx
    rcases List.mem_append.1 hx with hx | hx
    · exact hleft x hx
    · obtain ⟨y, hy, rfl⟩ := mem_under.1 hx
      exact (Bytes.append_lt_append_iff segment _ _).2 (h.before y hy)
  within := by
    intro x hx
    obtain ⟨y, hy, rfl⟩ := mem_under.1 hx
    exact (List.prefix_append_right_inj segment).2 (h.within y hy)
  after := by
    intro x hx
    rcases List.mem_append.1 hx with hx | hx
    · obtain ⟨y, hy, rfl⟩ := mem_under.1 hx
      obtain ⟨hlt, hout⟩ := h.after y hy
      exact ⟨(Bytes.append_lt_append_iff segment _ _).2 hlt,
        fun hin => hout ((List.prefix_append_right_inj segment).1 hin)⟩
    · exact hright x hx

end SplitsUnder

/-- A sorted listing splits at every key, and holds it at most once. -/
theorem Sorted.splitsAt {l : List (Bytes × α)} (h : Sorted l) (key : Bytes) :
    ∃ xs ms ys, SplitsAt key l xs ms ys ∧ ms.length ≤ 1 := by
  induction l with
  | nil => exact ⟨[], [], [], ⟨rfl, by simp, by simp, by simp⟩, by simp⟩
  | cons a l ih =>
      unfold Sorted at h
      rw [List.pairwise_cons] at h
      obtain ⟨xs, ms, ys, hs, hle⟩ := ih h.2
      -- the parts of the tail, unless the head is at the key or above it already
      rcases Std.lt_trichotomy a.1 key with hlt | heq | hgt
      · refine ⟨a :: xs, ms, ys, ⟨by rw [hs.parts]; rfl, ?_, hs.here, hs.above⟩, hle⟩
        intro x hx
        rcases List.mem_cons.1 hx with rfl | hx
        · exact hlt
        · exact hs.below x hx
      · refine ⟨[], [a], l, ⟨rfl, by simp, ?_, ?_⟩, by simp⟩
        · intro x hx
          rw [List.mem_singleton.1 hx, heq]
        · intro x hx
          exact heq ▸ h.1 x hx
      · refine ⟨[], [], a :: l, ⟨rfl, by simp, by simp, ?_⟩, by simp⟩
        intro x hx
        rcases List.mem_cons.1 hx with rfl | hx
        · exact hgt
        · exact List.lt_trans hgt (h.1 x hx)

end OrderedStore
