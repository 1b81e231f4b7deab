import Mathlib.Tactic
import OrderedStore.Proofs.Edit

/-!
# What an edit makes anew

Versions of a structure are compared by the stamps of their pieces, which tells the truth only if no stamp is ever on
two different pieces. A stamp that is drawn goes to one piece, and pieces are written only by making new ones: so says
`Renewed` of the pieces before and after an edit, each of which is an old one or made with a stamp of its own, drawn on
the way. From there it is a fact about lists of pieces that equal stamps keep meaning equal pieces: they stay
`Coherent`. Where no piece comes to be in two places either, which is what `Reworked` says, different pieces keep
different stamps.
-/

namespace OrderedStore

variable {α : Type}

/-! ## Pieces made on the way -/

/-- Pieces with stamps drawn from `now` on up to `next`, each with a stamp of its own. -/
structure Made (stamp : α → Nat) (made : List α) (now next : Nat) : Prop where
  range : ∀ x ∈ made, now ≤ stamp x ∧ stamp x < next
  distinct : (made.map stamp).Nodup

namespace Made

variable {stamp : α → Nat} {made made' : List α} {a : α} {now lo hi mid next : Nat}

theorem nil : Made stamp [] now next := ⟨by simp, List.nodup_nil⟩

/-- One more piece, with a stamp drawn before or after those of the others. -/
theorem cons (h : Made stamp made lo hi) (hlo : now ≤ lo) (hhi : hi ≤ next)
    (ha : now ≤ stamp a ∧ stamp a < next) (hout : stamp a < lo ∨ hi ≤ stamp a) : Made stamp (a :: made) now next where
  range := by
    intro x hx
    rcases List.mem_cons.1 hx with rfl | hx
    · exact ha
    · have hrange := h.range x hx
      omega
  distinct := by
    rw [List.map_cons, List.nodup_cons]
    refine ⟨fun hmem => ?_, h.distinct⟩
    obtain ⟨x, hx, hxa⟩ := List.mem_map.1 hmem
    have hrange := h.range x hx
    omega

theorem singleton (ha : now ≤ stamp a ∧ stamp a < next) : Made stamp [a] now next :=
  ⟨by simpa using ha, by simp⟩

/-- Some of the pieces, in any order. -/
theorem subperm (h : Made stamp made now next) (hsub : made'.Subperm made) : Made stamp made' now next where
  range := fun x hx => h.range x (hsub.subset hx)
  distinct := by
    obtain ⟨part, hperm, hpart⟩ := hsub
    exact (hperm.map stamp).nodup_iff.1 (h.distinct.sublist (hpart.map stamp))

theorem perm (h : Made stamp made now next) (hp : made.Perm made') : Made stamp made' now next :=
  h.subperm hp.symm.subperm

theorem tail (h : Made stamp (a :: made) now next) : Made stamp made now next :=
  ⟨fun x hx => h.range x (List.mem_cons_of_mem _ hx), (List.nodup_cons.1 h.distinct).2⟩

theorem append (h : Made stamp made now mid) (h' : Made stamp made' mid next) (hle : now ≤ mid) (hle' : mid ≤ next) :
    Made stamp (made ++ made') now next where
  range := by
    intro x hx
    rcases List.mem_append.1 hx with hx | hx
    · have hrange := h.range x hx
      omega
    · have hrange := h'.range x hx
      omega
  distinct := by
    rw [List.map_append, List.nodup_append']
    refine ⟨h.distinct, h'.distinct, fun s hs hs' => ?_⟩
    obtain ⟨x, hx, rfl⟩ := List.mem_map.1 hs
    obtain ⟨y, hy, hyx⟩ := List.mem_map.1 hs'
    have hrange := h.range x hx
    have hrange' := h'.range y hy
    omega

theorem eq_of_stamp_eq (h : Made stamp made now next) {x y : α} (hx : x ∈ made) (hy : y ∈ made)
    (heq : stamp x = stamp y) : x = y := List.inj_on_of_nodup_map h.distinct hx hy heq

end Made

/-- Pieces each of which is an old one or made on the way. -/
structure Renewed (stamp : α → Nat) (old new : List α) (now next : Nat) : Prop where
  le : now ≤ next
  made : ∃ made, Made stamp made now next ∧ ∀ x ∈ new, x ∈ old ∨ x ∈ made

namespace Renewed

variable {stamp : α → Nat} {old mid new : List α} {now next between : Nat}

theorem of_subset (h : new ⊆ old) (hle : now ≤ next) : Renewed stamp old new now next :=
  ⟨hle, [], Made.nil, fun _ hx => Or.inl (h hx)⟩

theorem trans (h : Renewed stamp old mid now between) (h' : Renewed stamp mid new between next) :
    Renewed stamp old new now next := by
  obtain ⟨made, hmade, hmid⟩ := h.made
  obtain ⟨made', hmade', hnew⟩ := h'.made
  refine ⟨Nat.le_trans h.le h'.le, made ++ made', hmade.append hmade' h.le h'.le, fun x hx => ?_⟩
  rw [List.mem_append]
  rcases hnew x hx with hx | hx
  · exact (hmid x hx).imp id Or.inl
  · exact Or.inr (Or.inr hx)

/-- Other pieces are kept beside them. -/
theorem beside (h : Renewed stamp old new now next) (others : List α) :
    Renewed stamp (others ++ old) (others ++ new) now next := by
  obtain ⟨made, hmade, hmem⟩ := h.made
  refine ⟨h.le, made, hmade, fun x hx => ?_⟩
  rcases List.mem_append.1 hx with hx | hx
  · exact Or.inl (List.mem_append_left old hx)
  · exact (hmem x hx).imp (List.mem_append_right others) id

/-- Pieces of another kind, or of another place, that stay as they are. -/
theorem frame {γ : Type} {stamp' : γ → Stamp} {f : α → γ} (h : Renewed stamp old new now next)
    (hf : ∀ x, stamp' (f x) = stamp x) {all all' : List γ} (hold : old.map f ⊆ all)
    (hnew : ∀ x ∈ all', x ∈ all ∨ x ∈ new.map f) : Renewed stamp' all all' now next := by
  obtain ⟨made, hmade, hmem⟩ := h.made
  have hstamps : (made.map f).map stamp' = made.map stamp := by
    rw [List.map_map]
    exact List.map_congr_left fun x _ => hf x
  refine ⟨h.le, made.map f, ⟨?_, hstamps ▸ hmade.distinct⟩, fun x hx => ?_⟩
  · rw [List.forall_mem_map]
    intro x hx
    rw [hf]
    exact hmade.range x hx
  · rcases hnew x hx with hx | hx
    · exact Or.inl hx
    · obtain ⟨y, hy, rfl⟩ := List.mem_map.1 hx
      exact (hmem y hy).imp (fun hy => hold (List.mem_map_of_mem hy)) List.mem_map_of_mem

end Renewed

/-- Pieces each of which is made on the way or an old one, and no old one more often than it was there. -/
structure Reworked (stamp : α → Nat) (old new : List α) (now next : Nat) : Prop where
  le : now ≤ next
  made : ∃ made, Made stamp made now next ∧ new.Subperm (made ++ old)

namespace Reworked

variable {stamp : α → Nat} {old mid new : List α} {now next between : Nat}

theorem of_subperm (h : new.Subperm old) (hle : now ≤ next) : Reworked stamp old new now next :=
  ⟨hle, [], Made.nil, h⟩

theorem trans (h : Reworked stamp old mid now between) (h' : Reworked stamp mid new between next) :
    Reworked stamp old new now next := by
  obtain ⟨made, hmade, hmid⟩ := h.made
  obtain ⟨made', hmade', hnew⟩ := h'.made
  refine ⟨Nat.le_trans h.le h'.le, made ++ made', hmade.append hmade' h.le h'.le, ?_⟩
  have hall := hnew.trans ((List.subperm_append_left made').2 hmid)
  rw [← List.append_assoc] at hall
  exact hall.trans (List.perm_append_comm.append_right old).subperm

theorem renewed (h : Reworked stamp old new now next) : Renewed stamp old new now next := by
  obtain ⟨made, hmade, hnew⟩ := h.made
  exact ⟨h.le, made, hmade, fun x hx => (List.mem_append.1 (hnew.subset hx)).symm⟩

/-- **Each piece keeps a stamp of its own.** -/
theorem apart (h : Reworked stamp old new now next) (hold : Made stamp old 0 now) : Made stamp new 0 next := by
  obtain ⟨made, hmade, hnew⟩ := h.made
  have hall := hold.append hmade (Nat.zero_le now) h.le
  exact (hall.perm List.perm_append_comm).subperm hnew

end Reworked

/-- All stamps that count as old were drawn already. -/
def Drawn (old : Stamp → Prop) (now : Nat) : Prop := ∀ stamp : Nat, old stamp → stamp < now

theorem Drawn.mono {old : Stamp → Prop} {now next : Nat} (h : Drawn old now) (hle : now ≤ next) : Drawn old next :=
  fun stamp hold => Nat.lt_of_lt_of_le (h stamp hold) hle

/-- A stamp that is drawn is new. -/
theorem Drawn.not_old {old : Stamp → Prop} {now stamp : Nat} (h : Drawn old now) (hle : now ≤ stamp) : ¬ old stamp :=
  fun hold => Nat.not_lt_of_le hle (h stamp hold)

/-- Pieces with stamps that were drawn already, each stamp on one piece only. -/
structure Coherent (stamp : α → Nat) (all : List α) (now : Nat) : Prop where
  drawn : ∀ x ∈ all, stamp x < now
  alike : ∀ x ∈ all, ∀ y ∈ all, stamp x = stamp y → x = y

theorem Coherent.mono {stamp : α → Nat} {all : List α} {now next : Nat} (h : Coherent stamp all now)
    (hle : now ≤ next) : Coherent stamp all next :=
  ⟨fun x hx => Nat.lt_of_lt_of_le (h.drawn x hx) hle, h.alike⟩

theorem Made.coherent {stamp : α → Nat} {all : List α} {now : Nat} (h : Made stamp all 0 now) :
    Coherent stamp all now :=
  ⟨fun x hx => (h.range x hx).2, fun _ hx _ hy heq => h.eq_of_stamp_eq hx hy heq⟩

/-- **Pieces stay coherent** when they are old ones or made on the way. -/
theorem Coherent.renewed {stamp : α → Nat} {old new : List α} {now next : Nat} (h : Coherent stamp old now)
    (hr : Renewed stamp old new now next) : Coherent stamp new next := by
  obtain ⟨made, hmade, hmem⟩ := hr.made
  have hle := hr.le
  -- an old piece has a stamp from before, a made one has a stamp drawn on the way
  have apart : ∀ x ∈ old, ∀ y ∈ made, stamp x ≠ stamp y := by
    intro x hx y hy
    have hdrawn := h.drawn x hx
    have hrange := hmade.range y hy
    omega
  refine ⟨fun x hx => ?_, fun x hx y hy heq => ?_⟩
  · rcases hmem x hx with hx | hx
    · exact Nat.lt_of_lt_of_le (h.drawn x hx) hle
    · exact (hmade.range x hx).2
  · rcases hmem x hx with hx | hx <;> rcases hmem y hy with hy | hy
    · exact h.alike x hx y hy heq
    · exact absurd heq (apart x hx y hy)
    · exact absurd heq.symm (apart y hy x hx)
    · exact hmade.eq_of_stamp_eq hx hy heq

/-! ## How much is new -/

/-- How many pieces have a stamp that no old piece has. -/
def newcomers (stamp : α → Nat) (old new : List α) : Nat := new.countP fun x => stamp x ∉ old.map stamp

theorem newcomers_self (stamp : α → Nat) (old : List α) : newcomers stamp old old = 0 := by
  refine List.countP_eq_zero.2 fun x hx hnew => ?_
  exact of_decide_eq_true hnew (List.mem_map_of_mem hx)

end OrderedStore
