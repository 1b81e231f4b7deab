import Mathlib.Tactic
import OrderedStore.Proofs.Edit

/-!
# Runs that follow runs

A structure is measured against a specification call by call: both make the same calls, and the answers and
the states in between are compared. This file holds what all such comparisons share. `Meets` is one call,
`Follows` a run of calls, and a run follows if every call meets. A fault ends both runs and has to be the same
in both.
-/

namespace OrderedStore

open Edit

variable {C R M S : Type}

/-- Make calls one after the other, and keep every answer and the state after it. -/
def performAll (perform : M → C → Edit (R × M)) (m : M) : List C → Edit (List (R × M))
  | [] => return []
  | call :: calls => do
    let (reply, m) ← perform m call
    return (reply, m) :: (← performAll perform m calls)

/-- The answers that a specification gives to calls one after the other, each with the state after it. -/
def answerAll (answer : S → C → Except Fault (R × S)) (s : S) : List C → Except Fault (List (R × S))
  | [] => .ok []
  | call :: calls => do
    let (reply, s) ← answer s call
    return (reply, s) :: (← answerAll answer s calls)

/-- An edit comes to what a specification says: an answer that stands for the specified one, or its fault. -/
def Matches {α β : Type} (stands : α → β → Prop) (e : Edit α) : Except Fault β → Prop
  | .ok b => e.Yields fun a => stands a b
  | .error fault => e.Faults fault

section Matches

variable {α β α' β' : Type} {stands : α → β → Prop} {stands' : α' → β' → Prop} {e : Edit α} {spec : Except Fault β}
  {rest : α → Edit α'} {rest' : β → Except Fault β'}

theorem Matches.pure {a : α} {b : β} (h : stands a b) : Matches stands (Pure.pure a) (.ok b) := Yields.pure h

theorem Matches.throw {fault : Fault} : Matches stands (MonadExcept.throw fault) (.error fault) := Faults.throw

/-- What an edit answers stands for what is specified, and there is nothing else specified. -/
theorem Matches.specified (h : Matches stands e spec) : Matches (fun a b => spec = .ok b ∧ stands a b) e spec := by
  cases spec with
  | error fault => exact h
  | ok b => exact Yields.mono h fun a ha => ⟨rfl, ha⟩

/-- If an edit comes to what is specified, what is left has to do so from wherever it may end. -/
theorem Matches.bind (h : Matches stands e spec) (hrest : ∀ a b, stands a b → Matches stands' (rest a) (rest' b)) :
    Matches stands' (e >>= rest) (spec >>= rest') := by
  cases spec with
  | error fault => exact Faults.bind h
  | ok b =>
      change Matches stands' (e >>= rest) (rest' b)
      cases hspec : rest' b with
      | error fault =>
          refine Yields.bind_faults h fun a ha => ?_
          have hmatches := hrest a b ha
          rwa [hspec] at hmatches
      | ok b' =>
          refine Yields.bind h fun a ha => ?_
          have hmatches := hrest a b ha
          rwa [hspec] at hmatches

/-- A read that both make. -/
theorem Matches.read {γ : Type} {x : Except Fault γ} {rest : γ → Edit α'} {rest' : γ → Except Fault β'}
    (hrest : ∀ c, x = .ok c → Matches stands' (rest c) (rest' c)) :
    Matches stands' (liftM x >>= rest) (x >>= rest') := by
  cases x with
  | error fault => exact Faults.bind fun _ => rfl
  | ok c => exact hrest c rfl

/-- Whatever an edit answers stands for what is specified. -/
theorem Matches.ensures (h : Matches stands e spec) : e.Ensures fun a => ∃ b, spec = .ok b ∧ stands a b := by
  cases spec with
  | error fault =>
      intro now a next hrun
      cases (h now).symm.trans hrun
  | ok b => exact (Yields.mono h fun a ha => ⟨b, rfl, ha⟩).ensures

end Matches

/-- A call comes to what the specification says: its answer and a state that stands for the specified one, or
its fault. -/
def Meets (stands : M → S → Prop) (call : Edit (R × M)) : Except Fault (R × S) → Prop
  | .ok (reply, s) => call.Yields fun (r, m) => r = reply ∧ stands m s
  | .error fault => call.Faults fault

theorem meets_iff_matches {stands : M → S → Prop} {call : Edit (R × M)} {spec : Except Fault (R × S)} :
    Meets stands call spec ↔ Matches (fun a b => a.1 = b.1 ∧ stands a.2 b.2) call spec := by
  cases spec with
  | error fault => exact Iff.rfl
  | ok result => exact Iff.rfl

/-- A run follows a specified run: the same answers, and after every call states that agree, or the same
fault. -/
def Follows (agrees : M → S → Prop) :
    Except Fault (List (R × M) × Stamp) → Except Fault (List (R × S)) → Prop
  | .ok (steps, _), .ok steps' => List.Forall₂ (fun a b => a.1 = b.1 ∧ agrees a.2 b.2) steps steps'
  | .error fault, .error fault' => fault = fault'
  | _, _ => False

/-- If a first call meets its specification, what is left has to meet the rest of it from wherever the first
call may end. -/
theorem Meets.bind {R' M' S' : Type} {stands : M → S → Prop} {stands' : M' → S' → Prop} {call : Edit (R × M)}
    {spec : Except Fault (R × S)} {rest : R × M → Edit (R' × M')} {rest' : R × S → Except Fault (R' × S')}
    (h : Meets stands call spec)
    (hrest : ∀ r m s, stands m s → Meets stands' (rest (r, m)) (rest' (r, s))) :
    Meets stands' (call >>= rest) (spec >>= rest') := by
  rw [meets_iff_matches] at h ⊢
  refine h.bind ?_
  rintro ⟨r, m⟩ ⟨r', s⟩ ⟨hr, hm⟩
  -- the answer is the specified one, so the rest is specified from the same place
  obtain rfl : r = r' := hr
  exact meets_iff_matches.1 (hrest r m s hm)

/-- What comes before a call and always ends well makes no difference to what the call has to meet. -/
theorem Meets.after {α : Type} {stands : M → S → Prop} {e : Edit α} {P : α → Prop} {call : α → Edit (R × M)}
    {spec : Except Fault (R × S)} (he : e.Yields P) (h : ∀ a, P a → Meets stands (call a) spec) :
    Meets stands (e >>= call) spec := by
  cases spec with
  | error fault => exact Yields.bind_faults he h
  | ok result => exact Yields.bind he h

/-- **A call that comes to an answer** comes to the specified one, in a state that stands for the specified one. -/
theorem Meets.of_run {stands : M → S → Prop} {call : Edit (R × M)} {spec : Except Fault (R × S)}
    (h : Meets stands call spec) {reply : R} {m : M} {now next : Stamp} (hrun : call.run now = .ok ((reply, m), next)) :
    ∃ s, spec = .ok (reply, s) ∧ stands m s := by
  obtain ⟨⟨reply', s⟩, hspec, rfl, hm⟩ := (meets_iff_matches.1 h).ensures now _ next hrun
  exact ⟨s, hspec, hm⟩

/-- A specification that ends in no fault but those in `F`. -/
def FaultsOnly {α : Type} (F : Fault → Prop) (x : Except Fault α) : Prop := ∀ fault, x = .error fault → F fault

section FaultsOnly

variable {α β : Type} {F : Fault → Prop}

theorem FaultsOnly.ok {a : α} : FaultsOnly F (.ok a) := fun _ h => nomatch h

theorem FaultsOnly.error {fault : Fault} (h : F fault) : FaultsOnly (α := α) F (.error fault) := by
  intro fault' heq
  exact Except.error.inj heq ▸ h

theorem FaultsOnly.bind {x : Except Fault α} {f : α → Except Fault β} (hx : FaultsOnly F x)
    (hf : ∀ a, FaultsOnly F (f a)) : FaultsOnly F (x >>= f) := by
  cases x with
  | error fault => exact FaultsOnly.error (hx fault rfl)
  | ok a => exact hf a

/-- The faults of an edit are those of its first part and those of the rest, from wherever the first part may end. -/
theorem FaultsOnly.run_bind {e : Edit α} {f : α → Edit β} {now : Stamp} (he : FaultsOnly F (e.run now))
    (hf : ∀ a next, e.run now = .ok (a, next) → FaultsOnly F ((f a).run next)) : FaultsOnly F ((e >>= f).run now) := by
  cases hrun : e.run now with
  | error fault =>
      rw [run_bind_error hrun]
      exact FaultsOnly.error (he fault hrun)
  | ok result =>
      rw [run_bind_ok hrun]
      exact hf result.1 result.2 hrun

theorem FaultsOnly.run_lift {x : Except Fault α} {now : Stamp} (hx : FaultsOnly F x) :
    FaultsOnly F ((liftM x : Edit α).run now) := by
  cases x with
  | error fault => exact FaultsOnly.error (hx fault rfl)
  | ok a => exact FaultsOnly.ok

end FaultsOnly

/-- A specification whose only fault is an exhausted pool, and only if `full` is true. -/
def ExhaustedOnly {α : Type} (full : Prop) (x : Except Fault α) : Prop :=
  FaultsOnly (fun fault => fault = .poolExhausted ∧ full) x

section ExhaustedOnly

variable {α β : Type} {full : Prop} {x : Except Fault α}

theorem ExhaustedOnly.ok {a : α} : ExhaustedOnly full (.ok a) := FaultsOnly.ok

theorem ExhaustedOnly.error (h : full) : ExhaustedOnly (α := α) full (.error .poolExhausted) :=
  FaultsOnly.error ⟨rfl, h⟩

theorem ExhaustedOnly.bind {f : α → Except Fault β} (hx : ExhaustedOnly full x)
    (hf : ∀ a, ExhaustedOnly full (f a)) : ExhaustedOnly full (x >>= f) := FaultsOnly.bind hx hf

theorem ExhaustedOnly.mono {full' : Prop} (hx : ExhaustedOnly full x) (h : full → full') : ExhaustedOnly full' x :=
  fun fault heq => ⟨(hx fault heq).1, h (hx fault heq).2⟩

theorem ExhaustedOnly.faultsOnly (h : ExhaustedOnly full x) : FaultsOnly (· = .poolExhausted) x :=
  fun fault heq => (h fault heq).1

end ExhaustedOnly

/-- What a run comes to: states that all satisfy `P`, or one of the faults in `F`. -/
def Ends (P : M → Prop) (F : Fault → Prop) : Except Fault (List (R × M) × Stamp) → Prop
  | .ok (steps, _) => ∀ step ∈ steps, P step.2
  | .error fault => F fault

/-- If every call meets its specification, a run goes through states that stand for specified ones, and ends in
no fault but the specified ones. -/
theorem ends_of_meets {perform : M → C → Edit (R × M)} {answer : S → C → Except Fault (R × S)}
    {stands : M → S → Prop} {F : Fault → Prop} (hfault : ∀ s call, FaultsOnly F (answer s call))
    (hmeets : ∀ m s call, stands m s → Meets stands (perform m call) (answer s call)) {m : M} {s : S}
    (h : stands m s) (calls : List C) (now : Stamp) :
    Ends (fun m => ∃ s, stands m s) F ((performAll perform m calls).run now) := by
  induction calls generalizing m s now with
  | nil => exact fun step hstep => absurd hstep List.not_mem_nil
  | cons call calls ih =>
      have hcall := hmeets m s call h
      rw [performAll]
      cases hanswer : answer s call with
      | error fault =>
          rw [hanswer] at hcall
          rw [run_bind_error (hcall now)]
          exact hfault s call fault hanswer
      | ok result =>
          obtain ⟨reply, s'⟩ := result
          rw [hanswer] at hcall
          obtain ⟨⟨reply', m'⟩, next, hrun, rfl, hm'⟩ := hcall now
          have hrest := ih hm' next
          rw [run_bind_ok hrun]
          cases hrun' : (performAll perform m' calls).run next with
          | error fault =>
              rw [hrun'] at hrest
              rw [run_bind_error hrun']
              exact hrest
          | ok result' =>
              rw [hrun'] at hrest
              rw [run_bind_ok hrun']
              intro step hstep
              rcases List.mem_cons.1 hstep with rfl | hstep
              · exact ⟨s', hm'⟩
              · exact hrest step hstep

/-- One more call in front of a run. -/
theorem Follows.cons {agrees : M → S → Prop} {run : Edit (List (R × M))} {now : Stamp}
    {spec : Except Fault (List (R × S))} {reply : R} {m : M} {s : S} (h : Follows agrees (run.run now) spec)
    (hm : agrees m s) :
    Follows agrees ((do return (reply, m) :: (← run)).run now) (do return (reply, s) :: (← spec)) := by
  rw [StateT.run_bind]
  cases hrun : run.run now with
  | error fault =>
      rw [hrun] at h
      cases spec with
      | error fault' => exact h
      | ok steps' => exact h.elim
  | ok result =>
      obtain ⟨steps, next⟩ := result
      rw [hrun] at h
      cases spec with
      | error fault' => exact h.elim
      | ok steps' => exact List.Forall₂.cons ⟨rfl, hm⟩ h

/-- **If every call meets its specification, every run follows it.** -/
theorem follows_of_meets {perform : M → C → Edit (R × M)} {answer : S → C → Except Fault (R × S)}
    {stands agrees : M → S → Prop} (hagrees : ∀ m s, stands m s → agrees m s)
    (hmeets : ∀ m s call, stands m s → Meets stands (perform m call) (answer s call)) {m : M} {s : S}
    (h : stands m s) (calls : List C) (now : Stamp) :
    Follows agrees ((performAll perform m calls).run now) (answerAll answer s calls) := by
  induction calls generalizing m s now with
  | nil => exact List.Forall₂.nil
  | cons call calls ih =>
      have hcall := hmeets m s call h
      rw [answerAll, performAll]
      cases hanswer : answer s call with
      | error fault =>
          rw [hanswer] at hcall
          rw [run_bind_error (hcall now)]
          exact rfl
      | ok result =>
          obtain ⟨reply, s'⟩ := result
          rw [hanswer] at hcall
          obtain ⟨⟨reply', m'⟩, next, hrun, rfl, hm'⟩ := hcall now
          rw [run_bind_ok hrun]
          exact (ih hm' next).cons (hagrees m' s' hm')

/-! ## States that calls lead to -/

/-- The states that calls lead to from one of them, made at any stamps. A call that ends in a fault leads nowhere. -/
inductive LeadsTo (perform : M → C → Edit (R × M)) (m : M) : M → Prop
  | here : LeadsTo perform m m
  | call {m' m'' : M} {call : C} {reply : R} {now next : Stamp} (h : LeadsTo perform m m')
    (ends : (perform m' call).run now = .ok ((reply, m''), next)) : LeadsTo perform m m''

/-- **If every call meets its specification**, what calls lead to stands for something specified. -/
theorem LeadsTo.stands {perform : M → C → Edit (R × M)} {answer : S → C → Except Fault (R × S)}
    {stands : M → S → Prop}
    (hmeets : ∀ m s call, stands m s → Meets stands (perform m call) (answer s call)) {m m' : M} {s : S}
    (h : stands m s) (hm : LeadsTo perform m m') : ∃ s', stands m' s' := by
  induction hm with
  | here => exact ⟨s, h⟩
  | call _ ends ih =>
      obtain ⟨s', hm'⟩ := ih
      obtain ⟨s'', -, hm''⟩ := (hmeets _ s' _ hm').of_run ends
      exact ⟨s'', hm''⟩

/-- The state after calls made one after the other, drawing stamps from a first one on. A call that ends in a fault is
passed over. -/
def afterAll (perform : M → C → Edit (R × M)) (m : M) (now : Stamp) : List C → M
  | [] => m
  | call :: calls =>
    match (perform m call).run now with
    | .ok ((_, m), next) => afterAll perform m next calls
    | .error _ => afterAll perform m now calls

theorem LeadsTo.afterAll {perform : M → C → Edit (R × M)} {m m' : M} (h : LeadsTo perform m m') (now : Stamp)
    (calls : List C) : LeadsTo perform m (afterAll perform m' now calls) := by
  induction calls generalizing m' now with
  | nil => exact h
  | cons call calls ih =>
      rw [OrderedStore.afterAll]
      split
      · rename_i hrun
        exact ih (.call h hrun) _
      · exact ih h now

end OrderedStore
