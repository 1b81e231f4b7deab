import Mathlib.Tactic
import OrderedStore.Proofs.Store.Refines

/-!
# A transaction that gives up

Giving up puts the writer back to what is published, which nobody kept a copy of for this. It is what the writer
had when the transaction began, because every operation before it left the writer with what it published: one
that changed something published it, one that changed nothing ended where it began, and one that gave up was put
back itself.
-/

namespace OrderedStore.Store

open Edit

/-- The stores that operations lead to from a new one, whatever the operations came to. -/
inductive Reachable (config : Config) : Store → Prop
  | empty : Reachable config (.empty config)
  | transaction {s s' : Store} {ε α : Type} {body : Program ε α} {result : Except ε α} (h : Reachable config s)
    (ends : s.transaction body = .ok (result, s')) : Reachable config s'
  | write {s s' : Store} {c : Command} {answer : c.Answer} (h : Reachable config s)
    (ends : s.write c = .ok (answer, s')) : Reachable config s'

variable {s s' : Store} {ε α : Type} {body : Program ε α}

/-- **A transaction leaves the store at rest**, however it ends. -/
theorem Settled.transaction {result : Except ε α} (h : s.Settled) (ends : s.transaction body = .ok (result, s')) :
    s'.Settled := by
  cases hrun : (body.run { space := s.working }).run s.supply with
  | error fault =>
      rw [transaction_of_fault hrun] at ends
      cases ends
  | ok middle =>
      obtain ⟨⟨result', t⟩, supply⟩ := middle
      rw [transaction_of_run hrun] at ends
      obtain ⟨rfl, rfl⟩ := Prod.mk.inj (Except.ok.inj ends)
      cases Except.isOk result' with
      | true => exact h.finish (kept_of_run hrun)
      | false => exact h.rollback_eq.symm ▸ h

theorem Settled.write {c : Command} {answer : c.Answer} (h : s.Settled) (ends : s.write c = .ok (answer, s')) :
    s'.Settled := by
  cases hrun : (({ space := s.working } : Transaction).perform c).run s.supply with
  | error fault =>
      rw [write_of_fault hrun] at ends
      cases ends
  | ok middle =>
      obtain ⟨⟨answer', t⟩, supply⟩ := middle
      rw [write_of_perform hrun] at ends
      obtain ⟨rfl, rfl⟩ := Prod.mk.inj (Except.ok.inj ends)
      exact h.finish (kept_of_perform hrun)

theorem Reachable.settled {config : Config} (h : Reachable config s) : s.Settled := by
  induction h with
  | empty => exact settled_empty config
  | transaction _ ends ih => exact ih.transaction ends
  | write _ ends ih => exact ih.write ends

/-- **A transaction that gives up restores the store**: what is left is the store itself, to the last leaf of the
writer's state, what readers see and the stamps that later writes draw. -/
theorem failed_transaction_restores {config : Config} (h : Reachable config s) {reason : ε} {t : Transaction}
    {supply : Stamp} (gaveUp : (body.run { space := s.working }).run s.supply = .ok ((.error reason, t), supply)) :
    s.transaction body = .ok (.error reason, s) := by
  rw [transaction_of_run gaveUp]
  show Except.ok (Except.error reason, s.rollback) = _
  rw [h.settled.rollback_eq]

/-- A transaction that stores a key before it gives up: it saw the key, and the store does not have it. -/
theorem failed_set_restores :
    let body : Program Unit Unit := .write (.set [97] [98]) fun _ => .fail ()
    let s := Store.empty {}
    ∃ t supply, (body.run { space := s.working }).run s.supply = .ok ((.error (), t), supply) ∧
      t.space.look (.get [97]) = .ok (some [98]) ∧ s.transaction body = .ok (.error (), s) ∧
      s.working.look (.get [97]) = .ok none := by
  intro body s
  let script : Script Lookup.Answer Unit Unit := .write (.set [97] [98]) fun _ => .fail ()
  have hmeets := script.program_meets (t := { space := s.working }) (Keyspace.represents_empty {} 0)
  have hfollow : script.follow {} .empty =
      .ok (.error (), { Contents.empty with values := FiniteMap.empty.insert [97] [98] }) := rfl
  rw [hfollow] at hmeets
  obtain ⟨⟨result, t⟩, supply, hrun, rfl, ht⟩ := hmeets s.supply
  have hset : t.space.look (.get [97]) = .ok (some [98]) := ht.look_eq (.get [97])
  exact ⟨t, supply, hrun, hset, failed_transaction_restores .empty hrun,
    (Keyspace.represents_empty {} 0).look_eq (.get [97])⟩

end OrderedStore.Store
