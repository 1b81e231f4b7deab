import Mathlib.Data.Fintype.Pigeonhole
import Mathlib.Tactic
import OrderedStore.Proofs.Answers
import OrderedStore.Proofs.Pool.Sound
import OrderedStore.Proofs.Runs
import OrderedStore.Walk.Basic

/-!
# Walks without an end

A walk stops at its last leaf or where the links stop. If the links lead round and past its last leaf, it does
neither and meets the same leaves for ever. A walk is counted here leaf by leaf, without any bound: it goes on for
ever if it can be taken any number of leaves further.

A pool has so many slots and no more, so a walk that was taken further than that has stood on some leaf twice.
What comes next depends on where a walk stands and on nothing else, so from there it goes round. This is what makes
the bound that walks are given harmless: a walk comes to its bound just if it goes on for ever.
-/

namespace OrderedStore

namespace Pool

variable {V : Type} {p : Pool V} {link : Link} {F : Fault → Prop}

/-- A link that is followed may lead to no leaf, and nothing else can go wrong. -/
theorem get_faults (hF : ∀ link, F (.dangling link)) : FaultsOnly F (p.get link) := by
  unfold get
  cases link.bind p.leaf? with
  | none => exact FaultsOnly.error (hF link)
  | some leaf => exact FaultsOnly.ok

theorem nextOf_faults (hF : ∀ link, F (.dangling link)) : FaultsOnly F (p.nextOf link) :=
  (get_faults hF).bind fun _ => FaultsOnly.ok

theorem prevOf_faults (hF : ∀ link, F (.dangling link)) : FaultsOnly F (p.prevOf link) :=
  (get_faults hF).bind fun _ => FaultsOnly.ok

end Pool

namespace Span

variable {V α : Type} {leaves : Pool V} {f : Leaf V → Except Fault α} {s t u : Span} {leaf : Leaf V} {m n : Nat}

/-- This many leaves further on, each of them worked on without a fault, this much is left to walk. -/
inductive Passes (leaves : Pool V) (f : Leaf V → Except Fault α) : Nat → Span → Span → Prop
  | here {s : Span} : Passes leaves f 0 s s
  | on {n : Nat} {s t u : Span} {leaf : Leaf V} {a : α} (met : s.next leaves = .ok (some (leaf, t)))
      (done : f leaf = .ok a) (rest : Passes leaves f n t u) : Passes leaves f (n + 1) s u

/-- A walk that goes on for ever. -/
def GoesOn (leaves : Pool V) (f : Leaf V → Except Fault α) (s : Span) : Prop := ∀ n, ∃ t, Passes leaves f n s t

/-! ## Further and further -/

theorem Passes.eq (h : Passes leaves f n s t) (h' : Passes leaves f n s u) : t = u := by
  induction h with
  | here =>
      cases h'
      rfl
  | on met _ _ ih =>
      cases h' with
      | on met' _ rest' =>
          cases met.symm.trans met'
          exact ih rest'

theorem Passes.trans (h : Passes leaves f m s t) (h' : Passes leaves f n t u) : Passes leaves f (m + n) s u := by
  induction h with
  | here => simpa using h'
  | on met done _ ih =>
      rw [Nat.add_right_comm]
      exact .on met done (ih h')

/-- What lies between is passed as well. -/
theorem Passes.split (h : Passes leaves f (m + n) s u) :
    ∃ t, Passes leaves f m s t ∧ Passes leaves f n t u := by
  induction m generalizing s with
  | zero => exact ⟨s, .here, by simpa using h⟩
  | succ m ih =>
      rw [Nat.add_right_comm] at h
      cases h with
      | on met done rest =>
          obtain ⟨t, hfirst, hrest⟩ := ih rest
          exact ⟨t, .on met done hfirst, hrest⟩

theorem Passes.between (h : Passes leaves f m s t) (h' : Passes leaves f n s u) (hle : m ≤ n) :
    Passes leaves f (n - m) t u := by
  obtain ⟨k, rfl⟩ := Nat.exists_eq_add_of_le hle
  obtain ⟨t', hfirst, hrest⟩ := h'.split
  rw [h.eq hfirst, Nat.add_sub_cancel_left]
  exact hrest

/-- **A walk that comes back to where it was goes on for ever.** -/
theorem goesOn_of_recurs (h : Passes leaves f m s t) (hround : Passes leaves f (n + 1) t t) :
    GoesOn leaves f s := by
  have hrounds : ∀ k, Passes leaves f (k * (n + 1)) t t := by
    intro k
    induction k with
    | zero => simpa using Passes.here
    | succ k ih =>
        rw [Nat.succ_mul]
        exact ih.trans hround
  intro k
  have hfar := h.trans (hrounds k)
  have hle : k ≤ m + k * (n + 1) := by
    have hgrow : k ≤ k * (n + 1) := Nat.le_mul_of_pos_right k (Nat.succ_pos n)
    omega
  rw [← Nat.add_sub_cancel' hle] at hfar
  obtain ⟨u, hu, -⟩ := hfar.split
  exact ⟨u, hu⟩

/-! ## As many leaves as there are slots -/

/-- A walk that is not at its end stands on a live leaf, and its last leaf stays what it is. -/
theorem next_eq_some (h : s.next leaves = .ok (some (leaf, t))) :
    s.going = true ∧ leaves.get s.front = .ok leaf ∧ t.back = s.back := by
  unfold next at h
  cases hgoing : s.going with
  | false =>
      rw [hgoing] at h
      cases h
  | true =>
      rw [hgoing] at h
      obtain ⟨there, hget, hrest⟩ := exists_of_bind_eq_ok h
      by_cases hlast : s.front = s.back
      · rw [if_pos hlast] at hrest
        cases hrest
        exact ⟨rfl, hget, rfl⟩
      · rw [if_neg hlast] at hrest
        cases hrest
        exact ⟨rfl, hget, rfl⟩

theorem Passes.back_eq (h : Passes leaves f n s t) : t.back = s.back := by
  induction h with
  | here => rfl
  | on met _ _ ih => exact ih.trans (next_eq_some met).2.2

/-- Where a walk stands that can be taken further. -/
theorem Passes.stands (h : Passes leaves f (n + 1) s t) :
    ∃ id, s.front = some id ∧ id.index < leaves.capacity ∧ s.going = true := by
  cases h with
  | on met _ _ =>
      obtain ⟨hgoing, hget, -⟩ := next_eq_some met
      obtain ⟨id, hfront, hleaf⟩ := Pool.get_eq_ok hget
      exact ⟨id, hfront, Pool.index_lt_capacity (by simp [hleaf]), hgoing⟩

/-- **More leaves than there are slots**: a walk that is taken so far has stood somewhere twice. -/
theorem Passes.recurs (h : Passes leaves f (leaves.capacity + 1) s t) :
    ∃ m n u, Passes leaves f m s u ∧ Passes leaves f (n + 1) u u := by
  have hstands : ∀ i : Fin (leaves.capacity + 1), ∃ u id, Passes leaves f i s u ∧ u.front = some id ∧
      id.index < leaves.capacity ∧ u.going = true := by
    intro i
    have hi : i.val + ((leaves.capacity - i.val) + 1) = leaves.capacity + 1 := by omega
    rw [← hi] at h
    obtain ⟨u, hfirst, hrest⟩ := h.split
    obtain ⟨id, hid⟩ := hrest.stands
    exact ⟨u, id, hfirst, hid⟩
  choose u id hpass hfront hindex hgoing using hstands
  obtain ⟨i, j, hne, hsame⟩ := Fintype.exists_ne_map_eq_of_card_lt
    (fun i => (⟨(id i).index, hindex i⟩ : Fin leaves.capacity)) (by simp)
  have hid : id i = id j := Pool.index_injective (Fin.val_eq_of_eq hsame)
  have hu : u i = u j := by
    have hf : (u i).front = (u j).front := by rw [hfront, hfront, hid]
    have hb : (u i).back = (u j).back := (hpass i).back_eq.trans (hpass j).back_eq.symm
    have hg : (u i).going = (u j).going := by rw [hgoing, hgoing]
    calc u i = ⟨(u i).front, (u i).back, (u i).going⟩ := rfl
      _ = u j := by rw [hf, hb, hg]
  have hround : ∀ i j : Fin (leaves.capacity + 1), i < j → u i = u j →
      ∃ m n u, Passes leaves f m s u ∧ Passes leaves f (n + 1) u u := by
    intro i j hlt heq
    have hbetween := (hpass i).between (hpass j) hlt.le
    have hgap : j.val - i.val = (j.val - i.val - 1) + 1 := by
      have := Fin.lt_def.1 hlt
      omega
    rw [hgap, ← heq] at hbetween
    exact ⟨i, _, u i, hpass i, hbetween⟩
  rcases Nat.lt_or_gt_of_ne (Fin.val_ne_of_ne hne) with hlt | hlt
  · exact hround i j hlt hu
  · exact hround j i hlt hu.symm

/-- A walk goes on for ever just if it goes round. -/
theorem goesOn_iff_recurs :
    GoesOn leaves f s ↔ ∃ m n t, Passes leaves f m s t ∧ Passes leaves f (n + 1) t t := by
  constructor
  · intro h
    obtain ⟨t, ht⟩ := h (leaves.capacity + 1)
    exact ht.recurs
  · intro h
    obtain ⟨m, n, t, ht, hround⟩ := h
    exact goesOn_of_recurs ht hround

/-! ## Walks with a bound -/

/-- The walk over all leaves of a span, from its front. -/
def walk (leaves : Pool V) (s : Span) : Walk V := ⟨leaves, s, false, fun _ => true⟩

theorem walk_next (leaves : Pool V) (s : Span) : (s.walk leaves).next =
    (s.next leaves).map (Option.map fun (leaf, t) => (leaf, t.walk leaves)) := by
  unfold Walk.next Walk.fuel Walk.seek Walk.step
  change ((s.next leaves >>= _) >>= _) = _
  cases s.next leaves with
  | error fault => rfl
  | ok met =>
      cases met with
      | none => rfl
      | some met => rfl

/-- Work on as many leaves as are allowed, told by the step along the chain. -/
theorem trace_mapM_succ (k : Nat) : (((s.walk leaves).trace (k + 1)).mapM f) = (do
    match ← s.next leaves with
    | none => return []
    | some (leaf, t) => return (← f leaf) :: (← ((t.walk leaves).trace k).mapM f)) := by
  rw [Walk.trace, walk_next]
  cases s.next leaves with
  | error fault => rfl
  | ok met =>
      cases met with
      | none => rfl
      | some met => rfl

/-- A step along a chain has no fault but that of a link. -/
theorem next_faults {F : Fault → Prop} (hF : ∀ link, F (.dangling link)) : FaultsOnly F (s.next leaves) := by
  unfold next
  cases s.going with
  | false => exact FaultsOnly.ok
  | true =>
      refine (Pool.get_faults hF).bind fun leaf => ?_
      by_cases hlast : s.front = s.back
      · rw [if_pos hlast]
        exact FaultsOnly.ok
      · rw [if_neg hlast]
        exact FaultsOnly.ok

/-- As many leaves as are allowed: the bound is met. -/
theorem Passes.trace_mapM (h : Passes leaves f n s t) : ((s.walk leaves).trace n).mapM f = .error .endless := by
  induction h with
  | here => rfl
  | on met done _ ih =>
      rw [trace_mapM_succ, met]
      change (f _ >>= _) = _
      rw [done, ih]
      rfl

/-- Work that goes on for ever on some leaf is met, or the bound is before. -/
theorem Passes.trace_mapM_of_endless (h : Passes leaves f n s t) (met : t.next leaves = .ok (some (leaf, u)))
    (never : f leaf = .error .endless) (k : Nat) : ((s.walk leaves).trace k).mapM f = .error .endless := by
  induction h generalizing k with
  | here =>
      cases k with
      | zero => rfl
      | succ k =>
          rw [trace_mapM_succ, met]
          change (f _ >>= _) = _
          rw [never]
          rfl
  | on met' done _ ih =>
      cases k with
      | zero => rfl
      | succ k =>
          rw [trace_mapM_succ, met']
          change (f _ >>= _) = _
          rw [done, ih met]
          rfl

theorem passes_of_trace_mapM {k : Nat} (h : ((s.walk leaves).trace k).mapM f = .error .endless) :
    (∃ t, Passes leaves f k s t) ∨ ∃ n t u leaf, Passes leaves f n s t ∧ t.next leaves = .ok (some (leaf, u)) ∧
      f leaf = .error .endless := by
  induction k generalizing s with
  | zero => exact .inl ⟨s, .here⟩
  | succ k ih =>
      rw [trace_mapM_succ] at h
      cases hnext : s.next leaves with
      | error fault =>
          rw [hnext] at h
          cases h
          have hne := next_faults (F := (· ≠ .endless)) (fun _ => nofun) _ hnext
          exact absurd rfl hne
      | ok met =>
          rw [hnext] at h
          cases met with
          | none => cases h
          | some met =>
              obtain ⟨leaf, t⟩ := met
              change (f leaf >>= _) = _ at h
              cases hdone : f leaf with
              | error fault =>
                  rw [hdone] at h
                  cases h
                  exact .inr ⟨0, s, t, leaf, .here, hnext, hdone⟩
              | ok a =>
                  rw [hdone] at h
                  change (((t.walk leaves).trace k).mapM f >>= _) = _ at h
                  cases hrest : ((t.walk leaves).trace k).mapM f with
                  | ok as =>
                      rw [hrest] at h
                      cases h
                  | error fault =>
                      rw [hrest] at h
                      cases h
                      rcases ih hrest with ⟨u, hu⟩ | ⟨n, u, v, leaf', hu, hmet, hnever⟩
                      · exact .inl ⟨u, .on hnext hdone hu⟩
                      · exact .inr ⟨n + 1, u, v, leaf', .on hnext hdone hu, hmet, hnever⟩

theorem trace_faults {F : Fault → Prop} (hendless : F .endless) (hlink : ∀ link, F (.dangling link))
    (hf : ∀ leaf, FaultsOnly F (f leaf)) (k : Nat) : FaultsOnly F (((s.walk leaves).trace k).mapM f) := by
  induction k generalizing s with
  | zero => exact FaultsOnly.error hendless
  | succ k ih =>
      rw [trace_mapM_succ]
      refine (next_faults hlink).bind fun met => ?_
      cases met with
      | none => exact FaultsOnly.ok
      | some met => exact (hf met.1).bind fun _ => ih.bind fun _ => FaultsOnly.ok

/-- **A walk comes to its bound just if it goes on for ever**, or the work on some leaf that it comes to does. -/
theorem mapM_eq_endless_iff : (s.walk leaves).mapM f = .error .endless ↔ GoesOn leaves f s ∨
    ∃ n t u leaf, Passes leaves f n s t ∧ t.next leaves = .ok (some (leaf, u)) ∧ f leaf = .error .endless := by
  constructor
  · intro h
    rcases passes_of_trace_mapM h with ⟨t, ht⟩ | hnever
    · exact .inl (goesOn_iff_recurs.2 ht.recurs)
    · exact .inr hnever
  · intro h
    rcases h with h | ⟨n, t, u, leaf, ht, hmet, hnever⟩
    · obtain ⟨t, ht⟩ := h (s.walk leaves).fuel
      exact ht.trace_mapM
    · exact ht.trace_mapM_of_endless hmet hnever _

end Span

end OrderedStore
