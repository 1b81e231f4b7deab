import Mathlib.Tactic
import OrderedStore.Proofs.Answers
import OrderedStore.Proofs.Runs

/-!
# Runs that keep and read many states

A run may do more than make calls on one state. It keeps earlier states beside later ones, goes on from any of
them, and reads any of them at any time. Such a run is a list of acts on a list of states: a call makes a state
into its next one, a copy keeps a state beside the others, and a question reads one.

If every call on a state with an invariant keeps it, unless the call finds a pool full, and every question to such a
state has an answer, then every run ends well, unless it comes to a call that finds a pool full.
-/

namespace OrderedStore

/-- A run that comes to an answer, or finds a pool exhausted, and then `full` is true. -/
def EndsUnless {α : Type} (full : Prop) (x : Except Fault α) : Prop := Succeeds x ∨ x = .error .poolExhausted ∧ full

namespace Edit

variable {α β : Type}

/-- From a stamp, the edit comes to an answer that satisfies `Q`, or finds a pool exhausted, and then `full` is
true. -/
def Comes (e : Edit α) (now : Stamp) (full : Prop) (Q : α → Prop) : Prop :=
  (∃ a next, e.run now = .ok (a, next) ∧ Q a) ∨ e.run now = .error .poolExhausted ∧ full

namespace Comes

variable {e : Edit α} {f : α → Edit β} {now : Stamp} {full full' : Prop} {P : α → Prop} {Q : β → Prop}

theorem pure {a : α} (h : P a) : Comes (Pure.pure a) now full P := Or.inl ⟨a, now, rfl, h⟩

theorem of_yields (he : e.Yields P) : e.Comes now full P := Or.inl (he now)

theorem lift {x : Except Fault α} (hx : Succeeds x) : Comes (liftM x) now full fun _ => True := by
  obtain ⟨a, rfl⟩ := hx
  exact Or.inl ⟨a, now, rfl, trivial⟩

theorem bind (he : e.Comes now full P)
    (hf : ∀ a next, e.run now = .ok (a, next) → P a → (f a).Comes next full Q) : (e >>= f).Comes now full Q := by
  rcases he with ⟨a, next, hrun, ha⟩ | ⟨hrun, hfull⟩
  · have hrest := hf a next hrun ha
    unfold Comes at hrest ⊢
    rw [run_bind_ok hrun]
    exact hrest
  · exact Or.inr ⟨run_bind_error hrun, hfull⟩

theorem weaken (he : e.Comes now full P) (h : full → full') : e.Comes now full' P :=
  Or.imp id (fun hrun => ⟨hrun.1, h hrun.2⟩) he

theorem ensuring {Q : α → Prop} (he : e.Comes now full P) (hQ : e.EnsuresFrom now fun a _ => Q a) :
    e.Comes now full Q := by
  rcases he with ⟨a, next, hrun, -⟩ | hfault
  · exact Or.inl ⟨a, next, hrun, hQ a next hrun⟩
  · exact Or.inr hfault

theorem endsUnless (he : e.Comes now full P) : EndsUnless full (e.run now) := by
  rcases he with ⟨a, next, hrun, -⟩ | hrun
  · exact Or.inl ⟨(a, next), hrun⟩
  · exact Or.inr hrun

end Comes

end Edit

open Edit

/-- A call that meets a specification whose only fault is an exhausted pool. -/
theorem Meets.comes {R M S : Type} {stands : M → S → Prop} {call : Edit (R × M)} {spec : Except Fault (R × S)}
    {full : Prop} (h : Meets stands call spec) (hspec : ExhaustedOnly full spec) (now : Stamp) :
    call.Comes now full fun x => ∃ s, stands x.2 s := by
  cases spec with
  | error fault =>
      obtain ⟨rfl, hfull⟩ := hspec fault rfl
      exact Or.inr ⟨h now, hfull⟩
  | ok result =>
      obtain ⟨⟨reply, m⟩, next, hrun, -, hm⟩ := h now
      exact Or.inl ⟨(reply, m), next, hrun, result.2, hm⟩

/-! ## Acts -/

/-- Something done to one of several states, each known by its position: a call, a copy, or a question. -/
inductive Act (C Q : Type)
  | call (i : Nat) (c : C)
  | copy (i : Nat)
  | ask (i : Nat) (q : Q)

variable {C R M Q : Type} {A : Q → Type}

/-- Do one act. A call leaves the next state in place of the state, a copy comes last, and a question leaves the
states as they are. Where there is no state, there is nothing to do. -/
def act (perform : M → C → Edit (R × M)) (ask : M → (q : Q) → Except Fault (A q)) (states : List M) :
    Act C Q → Edit (List M)
  | .call i c =>
    match states[i]? with
    | none => return states
    | some m => do
      let (_, m) ← perform m c
      return states.set i m
  | .copy i => return states ++ states[i]?.toList
  | .ask i q =>
    match states[i]? with
    | none => return states
    | some m => do
      let _ ← ask m q
      return states

/-- Do acts one after the other. -/
def actAll (perform : M → C → Edit (R × M)) (ask : M → (q : Q) → Except Fault (A q)) (states : List M) :
    List (Act C Q) → Edit (List M)
  | [] => return states
  | a :: acts => do actAll perform ask (← act perform ask states a) acts

/-- A run that comes to a call that finds a pool full. `full` says this of a call on a state, made at a stamp. -/
def RunsFull (perform : M → C → Edit (R × M)) (ask : M → (q : Q) → Except Fault (A q)) (full : M → C → Stamp → Prop) :
    List M → List (Act C Q) → Stamp → Prop
  | _, [], _ => False
  | states, a :: acts, now =>
    (∃ i c m, a = .call i c ∧ states[i]? = some m ∧ full m c now) ∨
      ∃ states' next, (act perform ask states a).run now = .ok (states', next) ∧
        RunsFull perform ask full states' acts next

section Invariant

variable {perform : M → C → Edit (R × M)} {ask : M → (q : Q) → Except Fault (A q)} {full : M → C → Stamp → Prop}
  {P : M → Prop} {states : List M}

/-- **One act keeps the invariant of every state**, unless it is a call that finds a pool full. -/
theorem act_comes (hcall : ∀ m c now, P m → (perform m c).Comes now (full m c now) fun x => P x.2)
    (hask : ∀ m q, P m → Succeeds (ask m q)) (h : ∀ m ∈ states, P m) (a : Act C Q) (now : Stamp) :
    (act perform ask states a).Comes now (∃ i c m, a = .call i c ∧ states[i]? = some m ∧ full m c now)
      fun states => ∀ m ∈ states, P m := by
  cases a with
  | call i c =>
      rw [act]
      cases hm : states[i]? with
      | none => exact Comes.pure h
      | some m =>
          have hcomes := hcall m c now (h m (List.mem_of_getElem? hm))
          refine (hcomes.bind fun x next hrun hx => Comes.pure ?_).weaken fun hfull => ⟨i, c, m, rfl, hm, hfull⟩
          intro m' hm'
          rcases List.mem_or_eq_of_mem_set hm' with hold | rfl
          · exact h m' hold
          · exact hx
  | copy i =>
      refine Comes.pure fun m hm => ?_
      rcases List.mem_append.1 hm with hold | hcopy
      · exact h m hold
      · exact h m (List.mem_of_getElem? (Option.mem_toList.1 hcopy))
  | ask i q =>
      rw [act]
      cases hm : states[i]? with
      | none => exact Comes.pure h
      | some m =>
          have hanswer := hask m q (h m (List.mem_of_getElem? hm))
          exact Comes.bind (Comes.lift hanswer) fun answer next hrun _ => Comes.pure h

/-- **So does a whole run**, by induction along it. -/
theorem actAll_comes (hcall : ∀ m c now, P m → (perform m c).Comes now (full m c now) fun x => P x.2)
    (hask : ∀ m q, P m → Succeeds (ask m q)) (h : ∀ m ∈ states, P m) (acts : List (Act C Q)) (now : Stamp) :
    (actAll perform ask states acts).Comes now (RunsFull perform ask full states acts now)
      fun states => ∀ m ∈ states, P m := by
  induction acts generalizing states now with
  | nil => exact Comes.pure h
  | cons a acts ih =>
      refine Comes.bind ((act_comes hcall hask h a now).weaken Or.inl) fun states' next hrun h' => ?_
      exact (ih h' next).weaken fun hfull => Or.inr ⟨states', next, hrun, hfull⟩

end Invariant

end OrderedStore
