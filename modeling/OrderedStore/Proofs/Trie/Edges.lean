import Mathlib.Tactic
import OrderedStore.Trie.Node

/-!
# Bisection among ascending edges

On edges whose labels ascend strictly, the bisection finds the edge with a given label if there is one,
and otherwise the place between the smaller and the greater labels.
-/

namespace OrderedStore.Edge

variable {α : Type}

/-- Labels ascend strictly from left to right. -/
def Ascending (edges : List (Edge α)) : Prop := edges.Pairwise fun a b => a.label < b.label

theorem Ascending.insert {l r : List (Edge α)} {e : Edge α} (h : Ascending (l ++ r))
    (hl : ∀ x ∈ l, x.label < e.label) (hr : ∀ x ∈ r, e.label < x.label) : Ascending (l ++ e :: r) := by
  unfold Ascending at h ⊢
  rw [List.pairwise_append] at h ⊢
  obtain ⟨hleft, hright, hcross⟩ := h
  refine ⟨hleft, List.pairwise_cons.2 ⟨hr, hright⟩, fun x hx y hy => ?_⟩
  rcases List.mem_cons.1 hy with rfl | hy
  · exact hl x hx
  · exact hcross x hx y hy

/-- What the bisection keeps: the last edge not above the label, if there is one, lies in the stretch. -/
structure Within (edges : List (Edge α)) (label : UInt8) (base size : Nat) : Prop where
  fits : base + size ≤ edges.length
  low : base = 0 ∨ ∃ e, edges[base]? = some e ∧ e.label ≤ label
  high : ∀ (i : Nat) (e : Edge α), base + size ≤ i → edges[i]? = some e → label < e.label

theorem Ascending.lt {edges : List (Edge α)} (h : Ascending edges) {i j : Nat} {a b : Edge α} (hij : i < j)
    (ha : edges[i]? = some a) (hb : edges[j]? = some b) : a.label < b.label := by
  obtain ⟨hi, rfl⟩ := List.getElem?_eq_some_iff.1 ha
  obtain ⟨hj, rfl⟩ := List.getElem?_eq_some_iff.1 hb
  exact List.pairwise_iff_getElem.1 h i j hi hj hij

/-- The bisection ends at one edge, and what it kept is true of it. -/
theorem within_narrow {edges : List (Edge α)} {label : UInt8} (hasc : Ascending edges) {base size : Nat}
    (h : Within edges label base size) (hpos : 0 < size) :
    Within edges label (narrow edges label base size) 1 := by
  induction size using Nat.strongRecOn generalizing base with
  | ind size ih =>
    rw [narrow]
    split
    · rename_i hle
      obtain rfl : size = 1 := by omega
      exact h
    · rename_i hgt
      have hfits := h.fits
      have hlt : base + size / 2 < edges.length := by omega
      have hmid := List.getElem?_eq_getElem hlt
      dsimp only
      rw [hmid, Option.any_some]
      -- whichever half is kept, the other one cannot hold the last edge not above the label
      refine ih (size - size / 2) (by omega) ?_ (by omega)
      split
      · rename_i habove
        rw [decide_eq_true_eq] at habove
        refine ⟨by omega, h.low, fun i e hi he => ?_⟩
        rcases Nat.lt_or_ge (base + size / 2) i with hlt' | hge
        · exact UInt8.lt_trans habove (hasc.lt hlt' hmid he)
        · obtain rfl : i = base + size / 2 := by omega
          rw [hmid, Option.some.injEq] at he
          exact he ▸ habove
      · rename_i hnot
        rw [decide_eq_true_eq, UInt8.not_lt] at hnot
        refine ⟨by omega, Or.inr ⟨_, hmid, hnot⟩, fun i e hi he => h.high i e (by omega) he⟩

/-- Ascending edges around one of them. -/
theorem Ascending.around {edges : List (Edge α)} (h : Ascending edges) {i : Nat} {e : Edge α}
    (hi : edges[i]? = some e) :
    edges = edges.take i ++ e :: edges.drop (i + 1) ∧ (∀ x ∈ edges.take i, x.label < e.label) ∧
      ∀ x ∈ edges.drop (i + 1), e.label < x.label := by
  obtain ⟨hlt, rfl⟩ := List.getElem?_eq_some_iff.1 hi
  have hparts : edges = edges.take i ++ edges[i] :: edges.drop (i + 1) := by
    rw [List.getElem_cons_drop, List.take_append_drop]
  unfold Ascending at h
  rw [hparts, List.pairwise_append, List.pairwise_cons] at h
  obtain ⟨-, ⟨hright, -⟩, hleft⟩ := h
  exact ⟨hparts, fun x hx => hleft x hx _ List.mem_cons_self, hright⟩

/-- If the edge found is below the label, the label belongs right after it. -/
theorem Within.above {edges : List (Edge α)} {label : UInt8} {i : Nat} {e : Edge α} (h : Within edges label i 1)
    (hasc : Ascending edges) (hi : edges[i]? = some e) (hsmall : e.label < label) :
    (∀ x ∈ edges.take (i + 1), x.label < label) ∧ ∀ x ∈ edges.drop (i + 1), label < x.label := by
  constructor
  · intro x hx
    obtain ⟨j, hj, rfl⟩ := List.mem_take_iff_getElem.1 hx
    rcases Nat.lt_or_ge j i with hji | hji
    · exact UInt8.lt_trans (hasc.lt hji (List.getElem?_eq_getElem _) hi) hsmall
    · obtain rfl : j = i := by omega
      rw [List.getElem?_eq_getElem (by omega), Option.some.injEq] at hi
      rw [hi]
      exact hsmall
  · intro x hx
    obtain ⟨j, hj, rfl⟩ := List.mem_drop_iff_getElem.1 hx
    exact h.high _ _ (Nat.le_add_right _ _) (List.getElem?_eq_getElem _)

/-- If the edge found is above the label, it is the first one, and every edge is above the label. -/
theorem Within.below {edges : List (Edge α)} {label : UInt8} {i : Nat} {e : Edge α} (h : Within edges label i 1)
    (hi : edges[i]? = some e) (hlarge : label < e.label) : i = 0 ∧ ∀ x ∈ edges, label < x.label := by
  have hzero : i = 0 := by
    rcases h.low with hzero | ⟨e', he', hle⟩
    · exact hzero
    · rw [hi, Option.some.injEq] at he'
      exact absurd (he' ▸ hle) (UInt8.not_le.2 hlarge)
  subst hzero
  refine ⟨rfl, fun x hx => ?_⟩
  obtain ⟨j, hj, rfl⟩ := List.mem_iff_getElem.1 hx
  rcases Nat.eq_zero_or_pos j with rfl | hj0
  · rw [List.getElem?_eq_getElem hj, Option.some.injEq] at hi
    rw [hi]
    exact hlarge
  · exact h.high j _ hj0 (List.getElem?_eq_getElem _)

/-- **Where a label belongs among ascending edges.** -/
theorem locate_cases {edges : List (Edge α)} (hasc : Ascending edges) (label : UInt8) :
    (∃ l e r, edges = l ++ e :: r ∧ e.label = label ∧ (∀ x ∈ l, x.label < label) ∧
        (∀ x ∈ r, label < x.label) ∧ locate edges label = .on l.length) ∨
      ∃ l r, edges = l ++ r ∧ (∀ e ∈ l, e.label < label) ∧ (∀ e ∈ r, label < e.label) ∧
        locate edges label = .before l.length := by
  rcases List.eq_nil_or_concat' edges with rfl | hne
  · exact Or.inr ⟨[], [], rfl, by simp, by simp, by simp [locate, narrow]⟩
  · have hpos : 0 < edges.length := by
      obtain ⟨l, e, rfl⟩ := hne
      simp
    -- before the first step the stretch is everything
    have hall : Within edges label 0 edges.length :=
      ⟨by omega, Or.inl rfl, fun i e hi he => by
        rw [List.getElem?_eq_none (by omega)] at he
        simp at he⟩
    have hin := within_narrow hasc hall hpos
    have hlt : narrow edges label 0 edges.length < edges.length := hin.fits
    unfold locate
    generalize narrow edges label 0 edges.length = i at hin hlt ⊢
    have hi := List.getElem?_eq_getElem hlt
    dsimp only
    rw [hi]
    dsimp only
    split
    · rename_i heq
      obtain ⟨hparts, hleft, hright⟩ := hasc.around hi
      rw [heq] at hleft hright
      exact Or.inl ⟨edges.take i, edges[i], edges.drop (i + 1), hparts, heq, hleft, hright,
        by rw [List.length_take_of_le (Nat.le_of_lt hlt)]⟩
    · rename_i hne
      split
      · rename_i hsmall
        obtain ⟨hleft, hright⟩ := hin.above hasc hi hsmall
        exact Or.inr ⟨edges.take (i + 1), edges.drop (i + 1), (List.take_append_drop _ _).symm, hleft, hright,
          by rw [List.length_take_of_le hlt]⟩
      · rename_i hlarge
        obtain ⟨rfl, habove⟩ := hin.below hi (UInt8.lt_of_le_of_ne (UInt8.not_lt.1 hlarge) (Ne.symm hne))
        exact Or.inr ⟨[], edges, rfl, by simp, habove, rfl⟩

end OrderedStore.Edge
