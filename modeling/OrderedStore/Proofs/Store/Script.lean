import Mathlib.Tactic
import OrderedStore.Store.Basic

/-!
# Scripts

A program may read the keyspace in any way, down to how it is laid out. A script reads it by asking questions
from a given family, and goes on according to the answer. So a script can be followed on anything that answers
the same questions and takes the same writes.
-/

namespace OrderedStore

/-- The body of a transaction that reads by asking questions; a question `q` has an answer in `A q`. -/
inductive Script {Q : Type} (A : Q → Type) (ε α : Type)
  /-- End with an answer. -/
  | done (answer : α)
  /-- Give up. -/
  | fail (reason : ε)
  /-- Ask about the writer's state and go on. -/
  | ask (q : Q) (next : A q → Script A ε α)
  /-- Write and go on. -/
  | write (c : Command) (next : c.Answer → Script A ε α)

variable {Q : Type} {A : Q → Type} {ε α : Type}

/-- The program that asks a keyspace. A fault met while reading stops it. -/
def Script.program (look : Keyspace → (q : Q) → Except Fault (A q)) : Script A ε α → Program ε α
  | .done answer => .done answer
  | .fail reason => .fail reason
  | .ask q next => .read fun space =>
    match look space q with
    | .ok answer => (next answer).program look
    | .error fault => .stop fault
  | .write c next => .write c fun answer => (next answer).program look

/-- Make a write of its own, each in the way it is offered: the two writes that can be refused are transactions
that give up. -/
def Store.call (s : Store) : (c : Command) → Except Fault (c.Answer × Store)
  | .set key value => s.set key value
  | .delete key => s.delete key
  | .deleteUnder start => s.deleteUnder start
  | .addMembers key items => s.addMembers key items
  | .removeMembers key members => s.removeMembers key members
  | .dropSet key => s.dropSet key

/-- Something done to a store: one write, or a transaction. -/
inductive Operation {Q : Type} (A : Q → Type) (ε α : Type)
  | write (c : Command)
  | transaction (script : Script A ε α)

/-- What an operation comes to. -/
inductive Outcome (ε α : Type)
  | wrote (c : Command) (answer : c.Answer)
  | ended (result : Except ε α)

/-- Do one operation. -/
def Store.operate (look : Keyspace → (q : Q) → Except Fault (A q)) (s : Store) :
    Operation A ε α → Edit (Outcome ε α × Store)
  | .write c => do
    let (answer, s) ← s.call c
    return (.wrote c answer, s)
  | .transaction script => do
    let (result, s) ← s.transaction (script.program look)
    return (.ended result, s)

end OrderedStore
