import Mathlib.Tactic
import OrderedStore.Proofs.Pool.Refines
import OrderedStore.Proofs.Pool.Renewal

/-!
# How many tables a pool does not share with a copy

A copy of a pool shares all tables with it. Every write from there on makes the tables on some paths anew, and those
that it leaves stay where they were below the root. A tower that gets another level has the old root as the first child
of the new one, and the comparison goes down as many first children as there are levels more. So it comes upon each table
that is still shared at the place where the copy has it, and counts the others: the tables of the pool that are none of
the copy's. They are different tables, so none of them is counted twice.
-/

namespace OrderedStore

variable {V : Type}

namespace Pool

open Edit

variable {p p' s : Pool V} {now next : Nat}

/-- Make calls one after the other, each after so many stamps were drawn for other things. -/
def performAmong (p : Pool V) : List (Nat × Call V) → Edit (Pool V)
  | [] => return p
  | (elsewhere, call) :: calls => do
    let _ ← draw elsewhere
    let (_, p) ← p.perform call
    p.performAmong calls

/-- **Every call makes tables anew** and leaves the others where they were. -/
theorem perform_continues (p : Pool V) (call : Call V) :
    (p.perform call).EnsuresFrom now fun r next => p.Continues r.2 now next := by
  cases call with
  | put key value => exact (put_opened p key value).bind fun r next h => EnsuresFrom.pure h.toContinues
  | modify link f => exact (modify_rewritten p link f).bind fun p' next h => EnsuresFrom.pure h.toContinues
  | vacate link => exact (vacate_rewritten p link).bind fun r next h => EnsuresFrom.pure h.toContinues
  | connect a b => exact (connect_rewritten p a b).bind fun p' next h => EnsuresFrom.pure h.toContinues
  | spliceAfter pred id =>
      exact (spliceAfter_rewritten p pred id).bind fun p' next ⟨_, h⟩ => EnsuresFrom.pure h.toContinues
  | spliceBefore succ id =>
      exact (spliceBefore_rewritten p succ id).bind fun p' next ⟨_, h⟩ => EnsuresFrom.pure h.toContinues
  | unlink id => exact (unlink_rewritten p id).bind fun p' next ⟨_, _, h⟩ => EnsuresFrom.pure h.toContinues
  | vacateRun first last =>
      exact (vacateRun_rewritten p first last).bind fun r next ⟨_, h⟩ => EnsuresFrom.pure h.toContinues

/-- A pool that came about from a copy. -/
structure Descends (s p : Pool V) (now : Nat) : Prop where
  represents : ∃ ledger, p.Represents ledger
  apart : Made Tower.stamp p.tables 0 now
  /-- Equal stamps tell what the pool shares with the copy. -/
  coherent : Coherent Tower.stamp (s.tables ++ p.tables) now
  /-- The tables that are left of the copy are in their places. -/
  places : p.InPlace (· ∈ s.tables.map Tower.stamp) s

/-- A copy that is just taken. -/
theorem descends_self (hrepresents : ∃ ledger, p.Represents ledger) (hapart : Made Tower.stamp p.tables 0 now) :
    Descends p p now where
  represents := hrepresents
  apart := hapart
  coherent := hapart.coherent.renewed (Renewed.of_subset (by simp) (Nat.le_refl now))
  places := inPlace_self _ p

theorem descends_empty (now : Nat) : Descends (empty : Pool V) empty now :=
  descends_self ⟨{}, represents_empty⟩ Made.nil

theorem Descends.mono (h : Descends s p now) (hle : now ≤ next) : Descends s p next :=
  ⟨h.represents, ⟨fun x hx => ⟨Nat.zero_le _, Nat.lt_of_lt_of_le (h.apart.range x hx).2 hle⟩, h.apart.distinct⟩,
    h.coherent.mono hle, h.places⟩

/-- The stamps of the copy were drawn before. -/
theorem Descends.drawn (h : Descends s p now) : Drawn (· ∈ s.tables.map Tower.stamp) now := by
  intro stamp hstamp
  obtain ⟨x, hx, rfl⟩ := List.mem_map.1 hstamp
  exact h.coherent.drawn x (List.mem_append_left _ hx)

theorem Descends.continues (h : Descends s p now) (hc : p.Continues p' now next)
    (hrepresents : ∃ ledger, p'.Represents ledger) : Descends s p' next where
  represents := hrepresents
  apart := hc.reworked.apart h.apart
  coherent := h.coherent.renewed (hc.renewed.beside s.tables)
  places := hc.places _ _ h.drawn h.places

/-- **Calls keep what is known of the copy**, as far as they come to an end. -/
theorem Descends.performAmong (h : Descends s p now) (calls : List (Nat × Call V)) :
    match (p.performAmong calls).run now with
    | .ok (p', next) => Descends s p' next
    | .error fault => Ledger.Blames fault := by
  induction calls generalizing p now with
  | nil => exact h
  | cons step calls ih =>
      obtain ⟨elsewhere, call⟩ := step
      have hwait := h.mono (Nat.le_add_right now elsewhere)
      obtain ⟨ledger, hledger⟩ := hwait.represents
      have hcall := hledger.meets call
      rw [Pool.performAmong, run_bind_ok (show (draw elsewhere).run now = .ok (now, now + elsewhere) from rfl)]
      cases hanswer : ledger.answer call with
      | error fault =>
          rw [hanswer] at hcall
          rw [run_bind_error (hcall (now + elsewhere))]
          exact ledger.answer_faults call fault hanswer
      | ok result =>
          rw [hanswer] at hcall
          obtain ⟨⟨reply, p'⟩, next, hrun, -, hp'⟩ := hcall (now + elsewhere)
          rw [run_bind_ok hrun]
          exact ih (hwait.continues (perform_continues p call _ _ hrun) ⟨result.2, hp'⟩)

/-- The count of the tables that a pool does not share with a copy. -/
structure CountsSince (p s : Pool V) : Prop where
  /-- The tables of the pool are different ones, and each is a table of the copy just if the two have one stamp. -/
  distinct : (p.tables.map Tower.stamp).Nodup
  alike : ∀ x ∈ p.tables, ∀ y ∈ s.tables, x.stamp = y.stamp → x = y
  /-- Those are counted whose stamp no table of the copy has. -/
  count : p.unsharedWith s = newcomers Tower.stamp s.tables p.tables

theorem Descends.countsSince (h : Descends s p now) : p.CountsSince s where
  distinct := h.apart.distinct
  alike := fun x hx y hy heq => h.coherent.alike x (List.mem_append_right _ hx) y (List.mem_append_left _ hy) heq
  count := h.places.unsharedWith_eq

/-- **The count since a copy is exact**, whatever calls made the pool that was copied and whatever calls were made since,
however far the tower grew with them. -/
theorem counts_since_copy (calls later : List (Nat × Call V)) (now : Stamp) :
    match (performAmong empty calls).run now with
    | .error fault => Ledger.Blames fault
    | .ok (s, mid) =>
      match (s.performAmong later).run mid with
      | .error fault => Ledger.Blames fault
      | .ok (p, _) => p.CountsSince s := by
  have hfirst := (descends_empty (V := V) now).performAmong calls
  cases hrun : (performAmong empty calls).run now with
  | error fault =>
      rw [hrun] at hfirst
      exact hfirst
  | ok result =>
      rw [hrun] at hfirst
      have hlater := (descends_self hfirst.represents hfirst.apart).performAmong later
      dsimp only
      cases hrun' : (result.1.performAmong later).run result.2 with
      | error fault =>
          rw [hrun'] at hlater
          exact hlater
      | ok result' =>
          rw [hrun'] at hlater
          exact hlater.countsSince

/-- One block is full when it is copied. The next leaf goes to a block of its own below a new root, and the old block is
the one table that is shared. -/
example :
    ((do
      let s ← (empty : Pool Unit).performAmong (List.replicate 64 (0, .put [] ()))
      let p ← s.performAmong [(0, .put [] ())]
      return (s.tables.length, p.tables.length, p.unsharedWith s) : Edit (Nat × Nat × Nat)).run 0).map Prod.fst =
        .ok (1, 3, 2) := by decide +kernel

end Pool

end OrderedStore
