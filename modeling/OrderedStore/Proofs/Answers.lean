import Mathlib.Tactic
import OrderedStore.Fault

/-!
# Reads that come to an answer

A read may end in a fault. What is known of a read that comes to an answer is known of its parts as well: each of
them came to an answer, and the answer is made of theirs.
-/

namespace OrderedStore

variable {α β : Type} {x : Except Fault α}

theorem exists_of_map_eq_ok {f : α → β} {b : β} (h : x.map f = .ok b) : ∃ a, x = .ok a ∧ f a = b := by
  cases x with
  | error fault => cases h
  | ok a => exact ⟨a, rfl, Except.ok.inj h⟩

theorem exists_of_bind_eq_ok {f : α → Except Fault β} {b : β} (h : x >>= f = .ok b) : ∃ a, x = .ok a ∧ f a = .ok b := by
  cases x with
  | error fault => cases h
  | ok a => exact ⟨a, rfl, h⟩

/-- Work on a list that comes to an answer came to one on every element, in order. -/
theorem forall₂_of_mapM_eq_ok {f : α → Except Fault β} {l : List α} {bs : List β} (h : l.mapM f = .ok bs) :
    List.Forall₂ (fun a b => f a = .ok b) l bs := by
  induction l generalizing bs with
  | nil =>
      obtain rfl := Except.ok.inj h
      exact .nil
  | cons a l ih =>
      rw [List.mapM_cons] at h
      obtain ⟨b, hb, hrest⟩ := exists_of_bind_eq_ok h
      obtain ⟨bs', hbs, hall⟩ := exists_of_bind_eq_ok hrest
      obtain rfl : b :: bs' = bs := Except.ok.inj hall
      exact .cons hb (ih hbs)

theorem exists_of_mapM_eq_ok {f : α → Except Fault β} {l : List α} {bs : List β} (h : l.mapM f = .ok bs) :
    ∀ a ∈ l, ∃ b ∈ bs, f a = .ok b := by
  have hall := forall₂_of_mapM_eq_ok h
  clear h
  induction hall with
  | nil => simp
  | @cons a b l bs hb _ ih =>
      intro a' ha'
      rcases List.mem_cons.1 ha' with rfl | ha'
      · exact ⟨b, List.mem_cons_self, hb⟩
      · obtain ⟨b', hb', heq⟩ := ih a' ha'
        exact ⟨b', List.mem_cons_of_mem b hb', heq⟩

/-- A read that comes to an answer. -/
def Succeeds (x : Except Fault α) : Prop := ∃ a, x = .ok a

namespace Succeeds

variable {f : α → Except Fault β}

theorem ok {a : α} : Succeeds (.ok a) := ⟨a, rfl⟩

theorem bind (hx : Succeeds x) (hf : ∀ a, x = .ok a → Succeeds (f a)) : Succeeds (x >>= f) := by
  obtain ⟨a, ha⟩ := hx
  have hrest := hf a ha
  rw [ha]
  exact hrest

/-- Work on a list succeeds if it does on every element. -/
theorem mapM {f : α → Except Fault β} {l : List α} (h : ∀ a ∈ l, Succeeds (f a)) : Succeeds (l.mapM f) := by
  induction l with
  | nil => exact ok
  | cons a l ih =>
      rw [List.mapM_cons]
      refine (h a List.mem_cons_self).bind fun b _ => ?_
      exact (ih fun x hx => h x (List.mem_cons_of_mem a hx)).bind fun bs _ => ok

end Succeeds

end OrderedStore
