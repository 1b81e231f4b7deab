/-!
# Counts

The number of keys a trie holds is a 64-bit word that is stepped up and down beside the structure it
counts. On a sound structure it never leaves its range; on a damaged one it wraps around.
-/

namespace OrderedStore.Count

/-- The number of values a count can take. -/
def bound : Nat := 0x10000000000000000

/-- One more, wrapping at the top. -/
def succ (n : Nat) : Nat := if n + 1 = bound then 0 else n + 1

/-- `k` less, wrapping at the bottom. -/
def less (n k : Nat) : Nat := if k ≤ n then n - k else n + bound - k

/-- A sum of counts, wrapped around. -/
def total (counts : List Nat) : Nat := counts.foldr (· + ·) 0 % bound

theorem succ_of_lt {n : Nat} (h : n + 1 < bound) : succ n = n + 1 := by
  unfold succ; split <;> omega

theorem less_of_le {n k : Nat} (h : k ≤ n) : less n k = n - k := by
  simp [less, h]

theorem total_of_lt {counts : List Nat} (h : counts.foldr (· + ·) 0 < bound) :
    total counts = counts.foldr (· + ·) 0 := Nat.mod_eq_of_lt h

end OrderedStore.Count
