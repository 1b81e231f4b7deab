import Mathlib.Tactic
import OrderedStore.Proofs.Store.Commands
import OrderedStore.Proofs.Store.Operations

/-!
# A store is its contents

Runs of operations on a store against the same operations on its contents. An operation is a single write or a
transaction, and the body of a transaction may ask any question after any write. What a write inside a
transaction answers is what the contents answer, also if it is refused and the transaction goes on; a transaction
that gives up leaves the contents as they were.
-/

namespace OrderedStore

open Edit

variable {ε α : Type} {config : Config} {c : Contents}

/-- **A script on a keyspace follows the script on its contents**, by induction on what it still does. -/
theorem Script.program_meets (script : Script Lookup.Answer ε α) {t : Transaction} (h : t.Represents config c) :
    Meets (Transaction.Represents config) ((script.program Keyspace.look).run t) (script.follow config c) := by
  induction script generalizing t c with
  | done answer => exact Yields.pure ⟨rfl, h⟩
  | fail reason => exact Yields.pure ⟨rfl, h⟩
  | ask q next ih =>
      rw [Script.program, Program.run, h.look_eq q]
      exact ih (c.look q) h
  | write cmd next ih =>
      rw [Script.program, Program.run, Script.follow]
      exact (h.perform_meets cmd).bind fun answer t' c' ht' => ih answer ht'

/-- The script that ends as an answer says. -/
def Script.orFail : Except ε α → Script Lookup.Answer ε α
  | .ok answer => .done answer
  | .error reason => .fail reason

theorem Script.program_orFail (answer : Except ε α) :
    (Script.orFail answer).program Keyspace.look = Store.orFail answer := by
  cases answer <;> rfl

theorem Script.follow_orFail (answer : Except ε α) (c : Contents) :
    (Script.orFail answer).follow config c = .ok (answer, c) := by
  cases answer <;> rfl

/-- To go back to where a refused write began makes no difference, if such a write changes nothing. -/
theorem Script.attempt_write (cmd : Command) (body : cmd.Answer → Except ε α)
    (hrefused : ∀ answer c', c.answer config cmd = .ok (answer, c') → Except.isOk (body answer) = false → c' = c) :
    (Script.write cmd fun answer => Script.orFail (body answer)).attempt config c = do
      let (answer, c') ← c.answer config cmd
      return (body answer, c') := by
  rw [attempt, follow]
  cases hanswer : c.answer config cmd with
  | error fault => rfl
  | ok result =>
      obtain ⟨answer, c'⟩ := result
      show ((Script.orFail (body answer)).follow config c' >>= _) = Except.ok (body answer, c')
      rw [Script.follow_orFail]
      show Except.ok (body answer, if Except.isOk (body answer) then c' else c) = Except.ok (body answer, c')
      cases hok : Except.isOk (body answer) with
      | true => rfl
      | false =>
          rw [hrefused answer c' hanswer hok]
          rfl

namespace Contents

/-- **A write that is refused changes nothing.** -/
theorem set_refused {key value : Bytes} {result : Except InputError (Option Bytes)} {c' : Contents}
    (h : c.answer config (.set key value) = .ok (result, c')) (hrefused : Except.isOk result = false) : c' = c := by
  rcases set_cases h with ⟨reason, -, rfl⟩ | ⟨-, rfl, -⟩
  · rfl
  · cases hrefused

theorem addMembers_refused {key : Bytes} {items : List (ScoredSet.Item Bytes)} {result : Except InputError Nat}
    {c' : Contents} (h : c.answer config (.addMembers key items) = .ok (result, c'))
    (hrefused : Except.isOk result = false) : c' = c := by
  rcases addMembers_cases h with ⟨rfl, -⟩ | ⟨-, -, count, z, -, rfl, -⟩
  · rfl
  · cases hrefused

end Contents

namespace Store

/-- The writer and the readers have these contents. -/
structure Represents (config : Config) (s : Store) (c : Contents) : Prop where
  settled : s.Settled
  working : s.working.Represents config c

variable {s : Store}

theorem represents_empty (config : Config) : (empty config).Represents config .empty where
  settled := settled_empty config
  working := Keyspace.represents_empty config 0

theorem Represents.finish {t : Transaction} {supply : Stamp} {c' : Contents} (h : s.Represents config c)
    (ht : t.Represents config c') (hkept : t.changed = false → t.space = s.working) :
    (s.finish t supply).Represents config c' := by
  refine ⟨h.settled.finish hkept, ?_⟩
  unfold Store.finish
  cases t.changed with
  | false => exact ht
  | true => exact ⟨ht.settings, ht.values, ht.sets⟩

/-- **A transaction** comes to what its script makes of the contents. -/
theorem Represents.transaction_meets (h : s.Represents config c) (script : Script Lookup.Answer ε α) :
    Meets (Represents config) (liftM (s.transaction (script.program Keyspace.look)))
      (script.attempt config c) := by
  have hmeets := script.program_meets (t := { space := s.working }) h.working
  unfold Script.attempt
  cases hfollow : script.follow config c with
  | error fault =>
      rw [hfollow] at hmeets
      rw [transaction_of_fault (hmeets s.supply)]
      exact fun now => rfl
  | ok result =>
      rw [hfollow] at hmeets
      obtain ⟨result, c'⟩ := result
      obtain ⟨⟨result', t⟩, supply, hrun, rfl, ht⟩ := hmeets s.supply
      rw [transaction_of_run hrun]
      refine Yields.lift rfl ⟨rfl, ?_⟩
      cases hresult : Except.isOk result' with
      | true => exact h.finish ht (kept_of_run hrun)
      | false => exact h.settled.rollback_eq ▸ h

/-- A write that cannot be refused. -/
theorem Represents.write_meets (h : s.Represents config c) (cmd : Command) :
    Meets (Represents config) (liftM (s.write cmd)) (c.answer config cmd) := by
  have hmeets := Transaction.Represents.perform_meets (t := { space := s.working }) h.working cmd
  cases hanswer : c.answer config cmd with
  | error fault =>
      rw [hanswer] at hmeets
      rw [write_of_fault (hmeets s.supply)]
      exact fun now => rfl
  | ok result =>
      rw [hanswer] at hmeets
      obtain ⟨⟨answer, t⟩, supply, hrun, rfl, ht⟩ := hmeets s.supply
      rw [write_of_perform hrun]
      exact Yields.lift rfl ⟨rfl, h.finish ht (kept_of_perform hrun)⟩

/-- A write that can be refused, as a transaction of its own. -/
theorem Represents.attempt_meets (h : s.Represents config c) (cmd : Command) (body : cmd.Answer → Except ε α)
    (hrefused : ∀ answer c', c.answer config cmd = .ok (answer, c') → Except.isOk (body answer) = false → c' = c) :
    Meets (Represents config) (liftM (s.transaction (.write cmd fun answer => orFail (body answer))))
      (do
        let (answer, c') ← c.answer config cmd
        return (body answer, c')) := by
  have hprogram : (Script.write cmd fun answer => Script.orFail (body answer)).program Keyspace.look =
      .write cmd fun answer => orFail (body answer) := by
    rw [Script.program]
    exact congrArg _ (funext fun answer => Script.program_orFail (body answer))
  rw [← hprogram, ← Script.attempt_write cmd body hrefused]
  exact h.transaction_meets _

/-- **A single write** answers what the contents answer. -/
theorem Represents.call_meets (h : s.Represents config c) (cmd : Command) :
    Meets (Represents config) (liftM (s.call cmd)) (c.answer config cmd) := by
  cases cmd with
  | set key value =>
      rw [← bind_pure (c.answer config (.set key value))]
      exact h.attempt_meets (.set key value) id fun answer c' => Contents.set_refused
  | addMembers key items =>
      rw [← bind_pure (c.answer config (.addMembers key items))]
      exact h.attempt_meets (.addMembers key items) id fun answer c' => Contents.addMembers_refused
  | delete key => exact h.write_meets (.delete key)
  | deleteUnder start => exact h.write_meets (.deleteUnder start)
  | removeMembers key gone => exact h.write_meets (.removeMembers key gone)
  | dropSet key => exact h.write_meets (.dropSet key)

/-- **An operation** on a store comes to what it comes to on the contents. -/
theorem Represents.operate_meets (h : s.Represents config c) (op : Operation Lookup.Answer ε α) :
    Meets (Represents config) (s.operate Keyspace.look op) (c.operate config op) := by
  cases op with
  | write cmd => exact (h.call_meets cmd).bind fun answer s' c' hs' => Yields.pure ⟨rfl, hs'⟩
  | transaction script => exact (h.transaction_meets script).bind fun result s' c' hs' => Yields.pure ⟨rfl, hs'⟩

/-- A store and contents that no question tells apart, neither the writer's nor a reader's. -/
structure Agrees (s : Store) (c : Contents) : Prop where
  working : ∀ q, s.working.look q = .ok (c.look q)
  published : ∀ q, s.published.look q = .ok (c.look q)

theorem Represents.agrees (h : s.Represents config c) : s.Agrees c where
  working := h.working.look_eq
  published := by
    have hsettled : s.working = s.published := h.settled
    rw [← hsettled]
    exact h.working.look_eq

/-- **A store refines its contents**, for every configuration and every run of operations on a new store. -/
theorem operations_follow (config : Config) (ops : List (Operation Lookup.Answer ε α)) (now : Stamp) :
    Follows Agrees ((performAll (operate Keyspace.look) (empty config) ops).run now)
      (answerAll (Contents.operate config) .empty ops) :=
  follows_of_meets (fun _ _ h => Represents.agrees h) (fun _ _ op h => Represents.operate_meets h op)
    (represents_empty config) ops now

end Store

end OrderedStore
