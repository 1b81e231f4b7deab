import Mathlib.Tactic
import OrderedStore.Stamp

/-!
# Edits that end without a fault

An edit draws stamps and may end in a fault. What a write leaves behind never hinges on which stamps it
drew, so the statements about writes quantify over the stamp an edit starts from: `Yields e Q` says that
`e` comes to an end from every stamp and that its answer satisfies `Q`, and `Faults e f` says that it ends
in `f` from every stamp. `Yields` is total: it is never true of an edit that faults. What holds of
an answer whether or not there is one, on damaged states too, is told by `Ensures`, and by `EnsuresFrom`
where it matters which stamps were drawn.
-/

namespace OrderedStore.Edit

variable {α β : Type}

/-- From every stamp the edit ends without a fault, in an answer that satisfies `Q`. -/
def Yields (e : Edit α) (Q : α → Prop) : Prop :=
  ∀ now, ∃ a next, e.run now = .ok (a, next) ∧ Q a

/-- From every stamp the edit ends in this fault. -/
def Faults (e : Edit α) (f : Fault) : Prop := ∀ now, e.run now = .error f

theorem Yields.pure {a : α} {Q : α → Prop} (h : Q a) : Yields (Pure.pure a) Q :=
  fun now => ⟨a, now, rfl, h⟩

theorem Yields.mono {e : Edit α} {P Q : α → Prop} (he : e.Yields P) (h : ∀ a, P a → Q a) :
    e.Yields Q := by
  intro now
  obtain ⟨a, next, hrun, ha⟩ := he now
  exact ⟨a, next, hrun, h a ha⟩

theorem run_bind_ok {e : Edit α} {f : α → Edit β} {now next : Stamp} {a : α}
    (h : e.run now = .ok (a, next)) : (e >>= f).run now = (f a).run next := by
  rw [StateT.run_bind, h]
  rfl

theorem run_bind_error {e : Edit α} {f : α → Edit β} {now : Stamp} {fault : Fault}
    (h : e.run now = .error fault) : (e >>= f).run now = .error fault := by
  rw [StateT.run_bind, h]
  rfl

theorem Yields.bind {e : Edit α} {f : α → Edit β} {P : α → Prop} {Q : β → Prop}
    (he : e.Yields P) (hf : ∀ a, P a → (f a).Yields Q) : (e >>= f).Yields Q := by
  intro now
  obtain ⟨a, mid, hrun, ha⟩ := he now
  obtain ⟨b, next, hrun', hb⟩ := hf a ha mid
  exact ⟨b, next, (run_bind_ok hrun).trans hrun', hb⟩

/-- A read that succeeds is an edit that draws no stamp. -/
theorem Yields.lift {x : Except Fault α} {a : α} {Q : α → Prop} (hx : x = .ok a) (h : Q a) :
    Yields (liftM x) Q := by
  subst hx
  exact fun now => ⟨a, now, rfl, h⟩

theorem lift_ok_bind {a : α} {f : α → Edit β} : ((liftM (Except.ok a : Except Fault α) : Edit α) >>= f) = f a :=
  rfl

theorem Yields.draw {count : Nat} {Q : Stamp → Prop} (h : ∀ now, Q now) : (draw count).Yields Q :=
  fun now => ⟨now, now + count, rfl, h now⟩

theorem Yields.fresh {Q : Stamp → Prop} (h : ∀ now, Q now) : fresh.Yields Q := Yields.draw h

theorem ok_bind {a : α} {f : α → Except Fault β} : (Except.ok a >>= f) = f a := rfl

section Steps

variable {a : α} {x : Except Fault α} {f : α → Edit β} {Q : β → Prop}

theorem Yields.bind_pure (hf : (f a).Yields Q) : (Pure.pure a >>= f).Yields Q := hf

/-- A read that succeeds goes on with its answer. -/
theorem Yields.bind_lift (hx : x = .ok a) (hf : (f a).Yields Q) : (liftM x >>= f).Yields Q := by
  subst hx
  exact hf

theorem Yields.bind_draw {count : Nat} {f : Stamp → Edit β} (hf : ∀ now, (f now).Yields Q) :
    (Edit.draw count >>= f).Yields Q :=
  Yields.bind (P := fun _ => True) (Yields.draw fun _ => trivial) fun now _ => hf now

theorem Yields.bind_fresh {f : Stamp → Edit β} (hf : ∀ now, (f now).Yields Q) : (Edit.fresh >>= f).Yields Q :=
  Yields.bind_draw hf

end Steps

theorem Faults.throw {f : Fault} : Faults (throw f : Edit α) f := fun _ => rfl

theorem Faults.bind {e : Edit α} {f : α → Edit β} {fault : Fault} (he : e.Faults fault) :
    (e >>= f).Faults fault := fun now => run_bind_error (he now)

theorem Yields.bind_faults {e : Edit α} {f : α → Edit β} {P : α → Prop} {fault : Fault}
    (he : e.Yields P) (hf : ∀ a, P a → (f a).Faults fault) : (e >>= f).Faults fault := by
  intro now
  obtain ⟨a, mid, hrun, ha⟩ := he now
  exact (run_bind_ok hrun).trans (hf a ha mid)

theorem Faults.bind_lift {x : Except Fault α} {a : α} {f : α → Edit β} {fault : Fault} (hx : x = .ok a)
    (hf : (f a).Faults fault) : (liftM x >>= f).Faults fault := by
  subst hx
  exact hf

theorem Faults.bind_fresh {f : Stamp → Edit β} {fault : Fault} (hf : ∀ now, (f now).Faults fault) :
    (Edit.fresh >>= f).Faults fault :=
  Yields.bind_faults (P := fun _ => True) (Yields.fresh fun _ => trivial) fun now _ => hf now

/-! ## Answers, if there are any -/

/-- If the edit ends without a fault from this stamp, its answer and the next unused stamp satisfy `Q`. -/
def EnsuresFrom (e : Edit α) (now : Stamp) (Q : α → Stamp → Prop) : Prop :=
  ∀ a next, e.run now = .ok (a, next) → Q a next

namespace EnsuresFrom

variable {e : Edit α} {f : α → Edit β} {now : Stamp} {P : α → Stamp → Prop} {Q : β → Stamp → Prop}

theorem pure {a : α} (h : P a now) : EnsuresFrom (Pure.pure a) now P := by
  intro b next hrun
  obtain ⟨rfl, rfl⟩ := Prod.mk.inj (Except.ok.inj hrun)
  exact h

theorem throw {fault : Fault} : EnsuresFrom (MonadExcept.throw fault : Edit α) now P := by
  intro a next hrun
  cases hrun

theorem bind (he : e.EnsuresFrom now P) (hf : ∀ a mid, P a mid → (f a).EnsuresFrom mid Q) :
    (e >>= f).EnsuresFrom now Q := by
  intro b next hrun
  cases he' : e.run now with
  | error fault =>
      -- a fault on the way is a fault at the end, and there is no answer
      rw [run_bind_error he'] at hrun
      cases hrun
  | ok result =>
      rw [run_bind_ok he'] at hrun
      exact hf result.1 result.2 (he result.1 result.2 he') b next hrun

theorem lift {x : Except Fault α} (h : ∀ a, x = .ok a → P a now) : EnsuresFrom (liftM x) now P := by
  cases x with
  | error fault =>
      intro a next hrun
      cases hrun
  | ok a => exact pure (h a rfl)

theorem bind_lift {x : Except Fault α} (hf : ∀ a, x = .ok a → (f a).EnsuresFrom now Q) :
    (liftM x >>= f).EnsuresFrom now Q := by
  cases x with
  | error fault =>
      intro b next hrun
      cases hrun
  | ok a => exact hf a rfl

theorem bind_draw {count : Nat} {f : Stamp → Edit β} (hf : (f now).EnsuresFrom (now + count) Q) :
    (draw count >>= f).EnsuresFrom now Q := hf

theorem bind_fresh {f : Stamp → Edit β} (hf : (f now).EnsuresFrom (now + 1) Q) : (fresh >>= f).EnsuresFrom now Q := hf

theorem mono (he : e.EnsuresFrom now P) {P' : α → Stamp → Prop} (h : ∀ a next, P a next → P' a next) :
    e.EnsuresFrom now P' := fun a next hrun => h a next (he a next hrun)

end EnsuresFrom

/-- If the edit ends without a fault, its answer satisfies `Q`. -/
def Ensures (e : Edit α) (Q : α → Prop) : Prop :=
  ∀ now a next, e.run now = .ok (a, next) → Q a

/-- What is true of all answers of an edit is true of the one it comes to. -/
theorem Yields.with {e : Edit α} {P Q : α → Prop} (he : e.Yields P) (hQ : e.Ensures Q) :
    e.Yields fun a => P a ∧ Q a := by
  intro now
  obtain ⟨a, next, hrun, ha⟩ := he now
  exact ⟨a, next, hrun, ha, hQ now a next hrun⟩

/-- An edit that comes to an answer comes to one of which is true what is true of all its answers. -/
theorem Yields.ensuring {e : Edit α} {P Q : α → Prop} (he : e.Yields P) (hQ : e.Ensures Q) : e.Yields Q :=
  (he.with hQ).mono fun _ h => h.2

/-- An edit has one answer, so what is true of the one it comes to is true of all. -/
theorem Yields.ensures {e : Edit α} {P : α → Prop} (he : e.Yields P) : e.Ensures P := by
  intro now a next hrun
  obtain ⟨a', next', hrun', ha⟩ := he now
  rw [hrun'] at hrun
  obtain ⟨rfl, -⟩ := Prod.mk.inj (Except.ok.inj hrun)
  exact ha

namespace Ensures

variable {e : Edit α} {f : α → Edit β} {P : α → Prop} {Q : β → Prop}

theorem pure {b : β} (h : Q b) : Ensures (Pure.pure b) Q := fun _ => EnsuresFrom.pure h

theorem bind (he : e.Ensures P) (hf : ∀ a, P a → (f a).Ensures Q) : (e >>= f).Ensures Q :=
  fun now => EnsuresFrom.bind (he now) fun a mid ha => hf a ha mid

theorem mono (he : e.Ensures P) {P' : α → Prop} (h : ∀ a, P a → P' a) : e.Ensures P' :=
  fun now a next hrun => h a (he now a next hrun)

/-- Nothing is known about an answer on the way. -/
theorem after (hf : ∀ a, (f a).Ensures Q) : (e >>= f).Ensures Q :=
  bind (P := fun _ => True) (fun _ _ _ _ => trivial) fun a _ => hf a

theorem lift {x : Except Fault α} (h : ∀ a, x = .ok a → P a) : Ensures (liftM x) P := fun _ => EnsuresFrom.lift h

theorem throw {fault : Fault} : Ensures (MonadExcept.throw fault : Edit β) Q := fun _ => EnsuresFrom.throw

end Ensures

end OrderedStore.Edit
