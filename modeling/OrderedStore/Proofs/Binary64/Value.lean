import Mathlib.Algebra.Order.Ring.Rat
import Mathlib.Order.WithBot
import Mathlib.Tactic
import OrderedStore.Proofs.Score.Key

/-!
# The numbers that words stand for

Scores are compared by their bits alone. What a word stands for is a number: `m * 2 ^ q` with the sign in front,
for the significand `m` and the exponent `q` of its fields, and an infinity for the largest exponent. Counted in
steps of the smallest word, `2 ^ -1074`, the absolute value of a word grows with its magnitude: within one
exponent it grows by one unit of that exponent, and the last word of an exponent is one unit below the first of
the next. So the order of ranks is the order of numbers.
-/

namespace OrderedStore.Binary64

variable {x y : Binary64}

/-- The absolute value of a finite word. -/
def absValue (x : Binary64) : ℚ := x.parts.1 * 2 ^ x.parts.2

/-- The number that a word stands for, the infinities below and above all others. -/
def value (x : Binary64) : WithBot (WithTop ℚ) :=
  if x.isInfinite then if x.negative then ⊥ else ((⊤ : WithTop ℚ) : WithBot (WithTop ℚ))
  else if x.negative then ((-x.absValue : ℚ) : WithTop ℚ) else ((x.absValue : ℚ) : WithTop ℚ)

/-- The absolute value of the word of a magnitude, in steps of the smallest word. -/
def steps (magnitude : Nat) : Nat :=
  if magnitude / 2 ^ 52 = 0 then magnitude % 2 ^ 52
  else (2 ^ 52 + magnitude % 2 ^ 52) * 2 ^ (magnitude / 2 ^ 52 - 1)

theorem steps_zero : steps 0 = 0 := rfl

/-- One more in magnitude is more in value. -/
theorem steps_lt_succ (n : Nat) : steps n < steps (n + 1) := by
  have hpow : 0 < 2 ^ (n / 2 ^ 52 - 1) := Nat.two_pow_pos _
  unfold steps
  by_cases hsame : (n + 1) / 2 ^ 52 = n / 2 ^ 52
  · rw [hsame]
    by_cases hleast : n / 2 ^ 52 = 0
    · rw [if_pos hleast, if_pos hleast]
      omega
    · rw [if_neg hleast, if_neg hleast]
      exact Nat.mul_lt_mul_of_pos_right (by omega) hpow
  · -- the fraction is full: the next word has the next exponent and an empty fraction
    have hfull : n % 2 ^ 52 = 2 ^ 52 - 1 := by omega
    have hempty : (n + 1) % 2 ^ 52 = 0 := by omega
    have hnext : (n + 1) / 2 ^ 52 = n / 2 ^ 52 + 1 := by omega
    rw [hfull, hempty, hnext, if_neg (Nat.succ_ne_zero _), Nat.add_sub_cancel]
    by_cases hleast : n / 2 ^ 52 = 0
    · rw [if_pos hleast, hleast]
      decide
    · have hdouble : 2 ^ (n / 2 ^ 52) = 2 * 2 ^ (n / 2 ^ 52 - 1) := by
        rw [← Nat.pow_succ']
        congr 1
        omega
      rw [if_neg hleast, hdouble]
      omega

theorem steps_lt_iff {m n : Nat} : steps m < steps n ↔ m < n :=
  (strictMono_nat_of_lt_succ steps_lt_succ).lt_iff_lt

theorem absValue_eq (x : Binary64) : x.absValue = steps x.magnitude * 2 ^ leastExponent := by
  have hfield : (0x10000000000000 : Nat) = 2 ^ 52 := rfl
  simp only [absValue, parts, steps, hfield]
  by_cases hleast : x.magnitude / 2 ^ 52 = 0
  · rw [if_pos hleast, if_pos hleast]
  · have hexponent : ((x.magnitude / 2 ^ 52 : Nat) : Int) - 1075 =
        ((x.magnitude / 2 ^ 52 - 1 : Nat) : Int) + leastExponent := by
      unfold leastExponent
      omega
    rw [if_neg hleast, if_neg hleast, hexponent, zpow_add₀ two_ne_zero, zpow_natCast]
    push_cast
    ring

/-! ## Order of ranks, order of numbers -/

/-- The steps of a word with its sign. -/
def signedSteps (x : Binary64) : Int := if x.negative then -(steps x.magnitude : Int) else steps x.magnitude

theorem signedSteps_lt_iff : x.signedSteps < y.signedSteps ↔ x.rank < y.rank := by
  have hxy := @steps_lt_iff x.magnitude y.magnitude
  have hyx := @steps_lt_iff y.magnitude x.magnitude
  have hx := @steps_lt_iff 0 x.magnitude
  have hy := @steps_lt_iff 0 y.magnitude
  rw [steps_zero] at hx hy
  unfold signedSteps rank
  cases x.negative <;> cases y.negative <;> simp only [if_true, if_false, Bool.false_eq_true] <;> omega

theorem value_of_finite (h : x.isInfinite = false) :
    x.value = (((x.signedSteps : ℚ) * 2 ^ leastExponent : ℚ) : WithTop ℚ) := by
  unfold value signedSteps
  cases x.negative <;> simp [h, absValue_eq]

theorem value_of_infinite (h : x.isInfinite = true) :
    x.value = if x.negative then ⊥ else ((⊤ : WithTop ℚ) : WithBot (WithTop ℚ)) := by
  simp [value, h]

theorem value_between (h : x.isInfinite = false) :
    ⊥ < x.value ∧ x.value < ((⊤ : WithTop ℚ) : WithBot (WithTop ℚ)) := by
  rw [value_of_finite h]
  exact ⟨WithBot.bot_lt_coe _, WithBot.coe_lt_coe.2 (WithTop.coe_lt_top _)⟩

theorem rank_between (hx : x.isNaN = false) (h : x.isInfinite = false) :
    -(infinityMagnitude : Int) < x.rank ∧ x.rank < infinityMagnitude := by
  simp only [isNaN, decide_eq_false_iff_not, isInfinite, beq_eq_false_iff_ne] at hx h
  unfold rank
  split <;> omega

theorem rank_of_infinite (h : x.isInfinite = true) :
    x.rank = if x.negative then -(infinityMagnitude : Int) else infinityMagnitude := by
  rw [rank, beq_iff_eq.1 h]

/-- **The order of ranks is the order of numbers**, infinities and the two zeros included. -/
theorem value_lt_iff (hx : x.isNaN = false) (hy : y.isNaN = false) : x.value < y.value ↔ x.rank < y.rank := by
  have hinfinity : 0 < infinityMagnitude := by decide
  cases hxi : x.isInfinite <;> cases hyi : y.isInfinite
  · have hunit : (0 : ℚ) < 2 ^ leastExponent := zpow_pos two_pos _
    rw [value_of_finite hxi, value_of_finite hyi, WithBot.coe_lt_coe, WithTop.coe_lt_coe,
      mul_lt_mul_iff_left₀ hunit, Int.cast_lt, signedSteps_lt_iff]
  · have hvalue := value_between hxi
    have hrank := rank_between hx hxi
    rw [value_of_infinite hyi, rank_of_infinite hyi]
    cases y.negative
    · exact iff_of_true hvalue.2 hrank.2
    · exact iff_of_false not_lt_bot hrank.1.not_gt
  · have hvalue := value_between hyi
    have hrank := rank_between hy hyi
    rw [value_of_infinite hxi, rank_of_infinite hxi]
    cases x.negative
    · exact iff_of_false hvalue.2.not_gt hrank.2.not_gt
    · exact iff_of_true hvalue.1 hrank.1
  · rw [value_of_infinite hxi, value_of_infinite hyi, rank_of_infinite hxi, rank_of_infinite hyi]
    cases x.negative <;> cases y.negative <;> simp [hinfinity]

theorem value_eq_iff (hx : x.isNaN = false) (hy : y.isNaN = false) : x.value = y.value ↔ x.rank = y.rank := by
  have hxy := value_lt_iff hx hy
  have hyx := value_lt_iff hy hx
  rw [eq_iff_le_not_lt, ← not_lt, hxy, hyx]
  omega

/-- **Scores are compared as the numbers they stand for.** -/
theorem below_iff : x.below y = true ↔ x.isNaN = false ∧ y.isNaN = false ∧ x.value < y.value := by
  cases hx : x.isNaN <;> cases hy : y.isNaN <;> simp [below, hx, hy, value_lt_iff]

theorem same_iff : x.same y = true ↔ x.isNaN = false ∧ y.isNaN = false ∧ x.value = y.value := by
  cases hx : x.isNaN <;> cases hy : y.isNaN <;> simp [same, hx, hy, value_eq_iff]

end OrderedStore.Binary64
