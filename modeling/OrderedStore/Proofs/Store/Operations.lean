import Mathlib.Tactic
import OrderedStore.Proofs.Store.Changes

/-!
# Operations on a store at rest

Between operations the writer has what is published. A store that is put back to what is published is then put
back to what the writer had, and an operation without a change leaves everything as it was.
-/

namespace OrderedStore

open Edit

variable {ε α : Type}

/-- A transaction that has heard of no change has changed nothing, however many writes it made. -/
theorem Program.run_ensures (body : Program ε α) (t : Transaction) :
    (body.run t).Ensures fun (_, t') => t'.changed = false → t' = t := by
  induction body generalizing t with
  | done answer => exact Ensures.pure fun _ => rfl
  | fail reason => exact Ensures.pure fun _ => rfl
  | stop fault => exact Ensures.throw
  | read next ih => exact ih t.space t
  | write c next ih =>
      refine Ensures.bind (t.perform_ensures c) fun result hl => ?_
      obtain ⟨answer, t₁⟩ := result
      intro now result next' hrun hunchanged
      obtain ⟨answer', t'⟩ := result
      have hrest : t' = t₁ := ih answer t₁ now (answer', t') next' hrun hunchanged
      rw [hrest, hl.changed, Bool.or_eq_false_iff] at hunchanged
      exact hrest.trans (hl.kept hunchanged.2)

namespace Store

variable {s s' : Store} {body : Program ε α} {t : Transaction} {supply : Stamp}

/-- The writer has what is published. -/
def Settled (s : Store) : Prop := s.working = s.published

theorem settled_empty (config : Config) : (empty config).Settled := rfl

theorem Settled.rollback_eq (h : s.Settled) : s.rollback = s := by
  obtain ⟨working, published, supply⟩ := s
  obtain rfl : working = published := h
  rfl

/-- **An operation that ends well leaves a store at rest**: what it changed is published. -/
theorem Settled.finish (h : s.Settled) (hkept : t.changed = false → t.space = s.working) :
    (s.finish t supply).Settled := by
  unfold Store.finish
  cases hchanged : t.changed with
  | false => exact (hkept hchanged).trans h
  | true => rfl

/-- How a transaction ends, given how its body ends. -/
theorem transaction_of_run {result : Except ε α} (hrun : (body.run { space := s.working }).run s.supply =
    .ok ((result, t), supply)) :
    s.transaction body = .ok (result, if Except.isOk result then s.finish t supply else s.rollback) := by
  unfold transaction
  rw [hrun]
  cases result <;> rfl

theorem transaction_of_fault {fault : Fault} (hrun : (body.run { space := s.working }).run s.supply = .error fault) :
    s.transaction body = .error fault := by
  unfold transaction
  rw [hrun]
  rfl

/-- A transaction that changed nothing is where it began. -/
theorem kept_of_run {result : Except ε α} (hrun : (body.run { space := s.working }).run s.supply =
    .ok ((result, t), supply)) (hunchanged : t.changed = false) : t.space = s.working := by
  have hsame := Program.run_ensures body { space := s.working } s.supply (result, t) supply hrun hunchanged
  rw [hsame]

section Write

variable {c : Command} {answer : c.Answer}

theorem write_of_perform (hrun : (({ space := s.working } : Transaction).perform c).run s.supply =
    .ok ((answer, t), supply)) : s.write c = .ok (answer, s.finish t supply) := by
  unfold write
  rw [hrun]
  rfl

theorem write_of_fault {fault : Fault}
    (hrun : (({ space := s.working } : Transaction).perform c).run s.supply = .error fault) :
    s.write c = .error fault := by
  unfold write
  rw [hrun]
  rfl

theorem kept_of_perform (hrun : (({ space := s.working } : Transaction).perform c).run s.supply =
    .ok ((answer, t), supply)) (hunchanged : t.changed = false) : t.space = s.working := by
  have hl := Transaction.perform_ensures { space := s.working } c s.supply (answer, t) supply hrun
  rw [hl.changed, Bool.false_or] at hunchanged
  rw [hl.kept hunchanged]

end Write

end Store

end OrderedStore
