import Mathlib.Data.Nat.Bitwise
import Mathlib.Tactic
import OrderedStore.Score.Key

/-!
# Score keys sort as scores do

Both orders are orders of numbers: byte strings of one length compare as the numbers they spell to base 256,
and the word of a score is its rank moved up into the range of a word. So the bytes of two score keys
compare as the ranks of the scores do, and scores of one rank, the two zeros among them, have one key.
-/

namespace OrderedStore

namespace Bytes

/-- The number that a string spells, highest byte first. -/
def number : Bytes → Nat
  | [] => 0
  | b :: s => b.toNat * 256 ^ s.length + number s

theorem number_lt (s : Bytes) : number s < 256 ^ s.length := by
  induction s with
  | nil => simp [number]
  | cons b s ih =>
      have hb : b.toNat + 1 ≤ 256 := b.toNat_lt
      have hmul := Nat.mul_le_mul_right (256 ^ s.length) hb
      rw [number, List.length_cons, Nat.pow_succ']
      rw [Nat.add_mul, Nat.one_mul] at hmul
      omega

/-- Strings of one length compare as the numbers they spell. -/
theorem lt_iff_number_lt {s t : Bytes} (h : s.length = t.length) : s < t ↔ number s < number t := by
  induction s generalizing t with
  | nil =>
      obtain rfl := List.eq_nil_of_length_eq_zero h.symm
      simp
  | cons a s ih =>
      obtain ⟨b, t, rfl⟩ := List.exists_cons_of_length_eq_add_one h.symm
      rw [List.length_cons, List.length_cons, Nat.add_right_cancel_iff] at h
      have hs := number_lt s
      have ht := number_lt t
      rw [List.cons_lt_cons_iff, ih h, number, number, h]
      rw [h] at hs
      -- the higher digit decides, for the rest is less than one unit of it
      rcases Nat.lt_trichotomy a.toNat b.toNat with hab | hab | hab
      · have hmul := Nat.mul_le_mul_right (256 ^ t.length) (Nat.succ_le_of_lt hab)
        rw [Nat.succ_mul] at hmul
        exact iff_of_true (Or.inl (UInt8.lt_iff_toNat_lt.2 hab)) (by omega)
      · obtain rfl := UInt8.toNat_inj.1 hab
        -- with equal first digits the rest decides
        have hirrefl : ¬ a < a := by simp
        rw [or_iff_right hirrefl, and_iff_right rfl]
        omega
      · have hmul := Nat.mul_le_mul_right (256 ^ t.length) (Nat.succ_le_of_lt hab)
        rw [Nat.succ_mul] at hmul
        refine iff_of_false ?_ (by omega)
        rintro (hlt | ⟨rfl, -⟩)
        · have hlt' := UInt8.lt_iff_toNat_lt.1 hlt
          omega
        · omega

end Bytes

namespace Binary64

theorem bits_lt (x : Binary64) : x.bits.toNat < 2 ^ 64 := x.bits.toNat_lt

theorem and_signBit_eq_zero (w : UInt64) : w &&& signBit = 0 ↔ w.toNat < 2 ^ 63 := by
  have hw := w.toNat_lt
  have hsign : signBit.toNat = 2 ^ 63 := rfl
  have hzero : (0 : UInt64).toNat = 0 := rfl
  rw [← UInt64.toNat_inj, UInt64.toNat_and, hsign, hzero, Nat.and_two_pow, Nat.testBit_eq_decide_div_mod_eq]
  by_cases h : w.toNat < 2 ^ 63
  · rw [Nat.div_eq_of_lt h]
    exact iff_of_true rfl h
  · have hone : w.toNat / 2 ^ 63 % 2 = 1 := by omega
    rw [hone]
    exact iff_of_false (by decide) h

theorem negative_iff (x : Binary64) : x.negative = true ↔ 2 ^ 63 ≤ x.bits.toNat := by
  unfold negative
  rw [bne_iff_ne, ne_eq, and_signBit_eq_zero, Nat.not_lt]

theorem rank_of_lt {x : Binary64} (h : x.bits.toNat < 2 ^ 63) : x.rank = x.bits.toNat := by
  have hneg : ¬ x.negative = true := by
    rw [negative_iff]
    omega
  unfold rank magnitude
  rw [if_neg hneg]
  omega

theorem rank_of_le {x : Binary64} (h : 2 ^ 63 ≤ x.bits.toNat) : x.rank = 2 ^ 63 - (x.bits.toNat : Int) := by
  have hlt := x.bits_lt
  unfold rank magnitude
  rw [if_pos ((negative_iff x).2 h)]
  omega

/-- The same number: both are numbers, of one rank. -/
theorem same_iff_rank {x y : Binary64} :
    x.same y = true ↔ x.isNaN = false ∧ y.isNaN = false ∧ x.rank = y.rank := by
  unfold same
  rw [Bool.and_eq_true, Bool.and_eq_true, Bool.not_eq_true', Bool.not_eq_true', beq_iff_eq, and_assoc]

end Binary64

namespace ScoreKey

open Binary64 (signBit and_signBit_eq_zero rank_of_lt rank_of_le)

theorem toNat_byte (w : UInt64) {i : Nat} (hi : i < 8) : (byte w i).toNat = w.toNat / 2 ^ (8 * i) % 2 ^ 8 := by
  unfold byte
  rw [UInt64.toNat_toUInt8, UInt64.toNat_shiftRight, UInt64.toNat_ofNat', Nat.shiftRight_eq_div_pow,
    Nat.mod_eq_of_lt (a := 8 * i) (by omega), Nat.mod_eq_of_lt (a := 8 * i) (by omega)]

theorem length_toBytes (k : ScoreKey) : k.toBytes.length = 8 := rfl

theorem number_toBytes (k : ScoreKey) : Bytes.number k.toBytes = k.word.toNat := by
  have hw := k.word.toNat_lt
  unfold toBytes
  simp only [List.map_cons, List.map_nil, Bytes.number, List.length_cons, List.length_nil]
  rw [toNat_byte _ (by omega), toNat_byte _ (by omega), toNat_byte _ (by omega), toNat_byte _ (by omega),
    toNat_byte _ (by omega), toNat_byte _ (by omega), toNat_byte _ (by omega), toNat_byte _ (by omega)]
  omega

theorem toBytes_lt_iff {k l : ScoreKey} : k.toBytes < l.toBytes ↔ k.word.toNat < l.word.toNat := by
  rw [Bytes.lt_iff_number_lt ((length_toBytes k).trans (length_toBytes l).symm), number_toBytes, number_toBytes]

theorem toBytes_inj {k l : ScoreKey} : k.toBytes = l.toBytes ↔ k = l := by
  constructor
  · intro h
    have hword : k.word.toNat = l.word.toNat := by rw [← number_toBytes, h, number_toBytes]
    exact congrArg ScoreKey.mk (UInt64.toNat_inj.1 hword)
  · rintro rfl
    rfl

/-- Reading a byte behind a word: the word moves up by a byte, and what leaves it at the top is lost. -/
theorem toNat_pushByte (w : UInt64) (b : UInt8) :
    (w <<< 8 ||| b.toUInt64).toNat = (w.toNat * 256 + b.toNat) % 2 ^ 64 := by
  have hb : b.toNat < 2 ^ 8 := b.toNat_lt
  have hshift : (w <<< 8).toNat = 2 ^ 8 * (w.toNat % 2 ^ 56) := by
    rw [UInt64.toNat_shiftLeft, Nat.shiftLeft_eq]
    change w.toNat * 2 ^ 8 % 2 ^ 64 = _
    omega
  -- the low byte of the moved word is empty, so the new byte is added there
  rw [UInt64.toNat_or, hshift, UInt8.toNat_toUInt64, ← Nat.two_pow_add_eq_or_of_lt hb]
  omega

theorem toNat_foldl_pushByte (s : Bytes) (w : UInt64) :
    (s.foldl (fun (w : UInt64) (b : UInt8) => w <<< 8 ||| b.toUInt64) w).toNat =
      (w.toNat * 256 ^ s.length + Bytes.number s) % 2 ^ 64 := by
  induction s generalizing w with
  | nil =>
      have hw := w.toNat_lt
      simp only [List.foldl_nil, List.length_nil, Bytes.number]
      omega
  | cons b s ih =>
      rw [List.foldl_cons, ih, toNat_pushByte, Bytes.number, List.length_cons, Nat.add_mod, Nat.mod_mul_mod,
        ← Nat.add_mod]
      congr 1
      ring

/-- **A key is read back from its bytes.** -/
theorem ofBytes?_toBytes (k : ScoreKey) : ofBytes? k.toBytes = some k := by
  have hw := k.word.toNat_lt
  have hword : k.toBytes.foldl (fun (w : UInt64) (b : UInt8) => w <<< 8 ||| b.toUInt64) 0 = k.word := by
    rw [← UInt64.toNat_inj, toNat_foldl_pushByte, number_toBytes, UInt64.toNat_zero, Nat.zero_mul, Nat.zero_add]
    omega
  rw [ofBytes?, if_pos (length_toBytes k), hword]

/-- The word of a score is its rank, moved up. The words of negative scores leave no gap at zero. -/
theorem toNat_word_ofNumber (x : Binary64) :
    ((ofNumber x).word.toNat : Int) = if x.rank < 0 then 2 ^ 63 - 1 + x.rank else 2 ^ 63 + x.rank := by
  have hlt := x.bits_lt
  unfold ofNumber
  -- both zeros get the word of rank zero, then the sign decides which bits are turned over
  by_cases hzero : x.magnitude = 0
  · have hrank : x.rank = 0 := by
      unfold Binary64.rank
      simp [hzero]
    rw [if_pos hzero, hrank]
    rfl
  · rw [if_neg hzero]
    unfold Binary64.magnitude at hzero
    by_cases hpos : x.bits.toNat < 2 ^ 63
    · have hor : (x.bits ||| signBit).toNat = 2 ^ 63 + x.bits.toNat := by
        rw [UInt64.toNat_or, Nat.or_comm]
        exact (Nat.two_pow_add_eq_or_of_lt hpos 1).symm
      rw [if_pos ((and_signBit_eq_zero _).2 hpos), rank_of_lt hpos, if_neg (by omega)]
      dsimp only
      rw [hor]
      omega
    · have hrank := rank_of_le (Nat.le_of_not_lt hpos)
      have hnot : (~~~x.bits).toNat = 2 ^ 64 - 1 - x.bits.toNat := UInt64.toNat_not x.bits
      rw [if_neg fun h => hpos ((and_signBit_eq_zero _).1 h), hrank, if_pos (by omega)]
      dsimp only
      rw [hnot]
      omega

/-- **Score keys sort as scores do.** -/
theorem ofNumber_lt_iff {x y : Binary64} : (ofNumber x).toBytes < (ofNumber y).toBytes ↔ x.rank < y.rank := by
  have hx := toNat_word_ofNumber x
  have hy := toNat_word_ofNumber y
  rw [toBytes_lt_iff]
  split at hx <;> split at hy <;> omega

theorem ofNumber_eq_iff {x y : Binary64} : ofNumber x = ofNumber y ↔ x.rank = y.rank := by
  have hxy := @ofNumber_lt_iff x y
  have hyx := @ofNumber_lt_iff y x
  rw [← toBytes_inj]
  constructor
  · intro h
    rw [h, iff_false_left (List.lt_irrefl _)] at hxy
    rw [h, iff_false_left (List.lt_irrefl _)] at hyx
    omega
  · intro h
    rw [h, iff_false_right (lt_irrefl _)] at hxy
    rw [h, iff_false_right (lt_irrefl _)] at hyx
    rcases Std.lt_trichotomy (ofNumber x).toBytes (ofNumber y).toBytes with hlt | heq | hgt
    · exact absurd hlt hxy
    · exact heq
    · exact absurd hgt hyx

/-- A score has a key if it is a number. -/
theorem ofScore_eq_ok_iff {x : Binary64} {k : ScoreKey} : ofScore x = .ok k ↔ x.isNaN = false ∧ ofNumber x = k := by
  unfold ofScore
  cases x.isNaN <;> simp

end ScoreKey

end OrderedStore
