/-!
# Byte strings

Keys, members and stored values are strings of bytes. They are ordered as lists: the first differing
byte decides, and a string comes before every proper continuation of it. Besides that order the store
needs two questions about the beginnings of strings: how far two of them agree, and what is left of
one after another.
-/

namespace OrderedStore

/-- A string of arbitrary bytes. -/
abbrev Bytes := List UInt8

namespace Bytes

/-- How many leading bytes two strings have in common. -/
def agreement : Bytes → Bytes → Nat
  | a :: as, b :: bs => if a = b then agreement as bs + 1 else 0
  | _, _ => 0

/-- What is left of the second string after the first, if it starts with it. -/
def after? : Bytes → Bytes → Option Bytes
  | [], s => some s
  | _ :: _, [] => none
  | a :: as, b :: bs => if a = b then after? as bs else none

/-- Whether the second string starts with the first. -/
def starts (head s : Bytes) : Bool := (after? head s).isSome

theorem after?_eq_some_iff {head s rest : Bytes} : after? head s = some rest ↔ s = head ++ rest := by
  fun_induction after? head s with
  | case1 s => simp
  | case2 a as => simp
  | case3 a as bs ih => simp [ih]
  | case4 a as b bs h => simp [Ne.symm h]

theorem after?_append (head rest : Bytes) : after? head (head ++ rest) = some rest :=
  after?_eq_some_iff.2 rfl

theorem starts_iff {head s : Bytes} : starts head s = true ↔ head <+: s := by
  unfold starts
  constructor
  · intro h
    obtain ⟨rest, hr⟩ := Option.isSome_iff_exists.1 h
    exact ⟨rest, (after?_eq_some_iff.1 hr).symm⟩
  · rintro ⟨rest, rfl⟩
    simp [after?_append]

theorem agreement_le_left (a b : Bytes) : agreement a b ≤ a.length := by
  fun_induction agreement a b with
  | case1 as b bs ih => simp; omega
  | case2 => simp
  | case3 => simp

theorem agreement_le_right (a b : Bytes) : agreement a b ≤ b.length := by
  fun_induction agreement a b with
  | case1 as b bs ih => simp; omega
  | case2 => simp
  | case3 => simp

/-- Two strings agree on their common beginning. -/
theorem take_agreement (a b : Bytes) : a.take (agreement a b) = b.take (agreement a b) := by
  fun_induction agreement a b with
  | case1 as b bs ih => simp [ih]
  | case2 => simp
  | case3 => simp

end Bytes

end OrderedStore
