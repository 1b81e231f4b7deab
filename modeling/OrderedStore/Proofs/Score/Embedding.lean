import OrderedStore.Proofs.Binary64.Value

/-!
# Score keys carry the order of the numbers, and nothing is lost

A score key is as good as its score. It is ordered as the number that the score stands for, as a word and as
bytes; the score comes back from the key, except that the two zeros are one score; and key and bytes determine
each other, so that every string of eight bytes is the key of exactly one word.
-/

namespace OrderedStore

namespace Bytes

theorem number_inj {s t : Bytes} (h : s.length = t.length) : number s = number t ↔ s = t := by
  constructor
  · intro hnumber
    have hst : ¬ s < t := fun hlt => by
      have := (lt_iff_number_lt h).1 hlt
      omega
    have hts : ¬ t < s := fun hlt => by
      have := (lt_iff_number_lt h.symm).1 hlt
      omega
    rcases Std.lt_trichotomy s t with hlt | heq | hlt
    · exact absurd hlt hst
    · exact heq
    · exact absurd hlt hts
  · intro heq
    rw [heq]

end Bytes

namespace Binary64

theorem magnitude_eq_zero_iff (x : Binary64) : x.magnitude = 0 ↔ x = zero ∨ x = zero.negate := by
  have hlt := x.bits_lt
  have hzero : zero.bits.toNat = 0 := rfl
  have hnegate : zero.negate.bits.toNat = 2 ^ 63 := rfl
  have hbits : ∀ y : Binary64, x = y ↔ x.bits.toNat = y.bits.toNat := fun y => by
    rw [UInt64.toNat_inj, Binary64.mk.injEq]
  rw [hbits, hbits, hzero, hnegate, magnitude]
  omega

end Binary64

namespace ScoreKey

open Binary64 (signBit and_signBit_eq_zero)

/-- Clearing the sign bit. -/
theorem toNat_and_not_signBit (w : UInt64) : (w &&& ~~~signBit).toNat = w.toNat % 2 ^ 63 := by
  have hmask : (~~~signBit).toNat = 2 ^ 63 - 1 := rfl
  rw [UInt64.toNat_and, hmask, Nat.and_two_pow_sub_one_eq_mod]

theorem score_of_lt {k : ScoreKey} (h : k.word.toNat < 2 ^ 63) : k.score = ⟨~~~k.word⟩ := by
  have hsign : k.word &&& signBit = 0 := (and_signBit_eq_zero _).2 h
  simp [score, hsign]

theorem score_of_le {k : ScoreKey} (h : 2 ^ 63 ≤ k.word.toNat) : k.score = ⟨k.word &&& ~~~signBit⟩ := by
  have hsign : k.word &&& signBit ≠ 0 := fun hsign => (Nat.not_lt.2 h) ((and_signBit_eq_zero _).1 hsign)
  simp [score, hsign]

/-- **The score comes back from its key**, the negative zero as the other one. -/
theorem score_ofNumber (x : Binary64) :
    (ofNumber x).score = if x = Binary64.zero.negate then Binary64.zero else x := by
  by_cases hzero : x.magnitude = 0
  · have hkey : ofNumber x = ofNumber .zero := ofNumber_eq_iff.2 (by simp [Binary64.rank, hzero]; rfl)
    rw [hkey]
    rcases (Binary64.magnitude_eq_zero_iff x).1 hzero with rfl | rfl <;> rfl
  · have hnegate : x ≠ Binary64.zero.negate := fun h => hzero ((Binary64.magnitude_eq_zero_iff x).2 (.inr h))
    rw [if_neg hnegate]
    by_cases hpos : x.bits.toNat < 2 ^ 63
    · -- the sign bit is set on the way in and cleared on the way back
      have hor : (x.bits ||| signBit).toNat = 2 ^ 63 + x.bits.toNat := by
        rw [UInt64.toNat_or, Nat.or_comm]
        exact (Nat.two_pow_add_eq_or_of_lt hpos 1).symm
      have hkey : ofNumber x = ⟨x.bits ||| signBit⟩ := by
        simp [ofNumber, hzero, (and_signBit_eq_zero _).2 hpos]
      rw [hkey, score_of_le (by dsimp only; omega)]
      congr 1
      rw [← UInt64.toNat_inj, toNat_and_not_signBit, hor]
      omega
    · -- all bits are turned over, twice
      have hnot : (~~~x.bits).toNat = 2 ^ 64 - 1 - x.bits.toNat := UInt64.toNat_not x.bits
      have hkey : ofNumber x = ⟨~~~x.bits⟩ := by
        simp [ofNumber, hzero, mt (and_signBit_eq_zero _).1 hpos]
      rw [hkey, score_of_lt (by dsimp only; omega)]
      simp

/-- A string that is read as a key is what the key is written as. -/
theorem ofBytes?_eq_some_iff {s : Bytes} {k : ScoreKey} : ofBytes? s = some k ↔ s = k.toBytes := by
  constructor
  · intro h
    by_cases hlength : s.length = 8
    · have hnumber := Bytes.number_lt s
      have hword : k.word.toNat = Bytes.number s % 2 ^ 64 := by
        rw [ofBytes?, if_pos hlength] at h
        cases h
        rw [toNat_foldl_pushByte, UInt64.toNat_zero, Nat.zero_mul, Nat.zero_add]
      rw [hlength] at hnumber
      refine (Bytes.number_inj (hlength.trans (length_toBytes k).symm)).1 ?_
      rw [number_toBytes]
      omega
    · rw [ofBytes?, if_neg hlength] at h
      cases h
  · intro h
    rw [h, ofBytes?_toBytes]

theorem ofBytes?_eq_none_iff {s : Bytes} : ofBytes? s = none ↔ s.length ≠ 8 := by
  simp [ofBytes?]

/-- **Score keys carry the order of the numbers, and nothing is lost.** Two scores that are numbers have keys; the
keys compare as the numbers do, as words and as bytes; they are equal just if the numbers are; and the first
score is read back from its key, up to the sign of a zero. Keys are written as eight bytes, every eight bytes
are those of the key that is read from them, and no other string is read as a key. -/
theorem ofScore_embeds :
    (∀ a b : Binary64, a.isNaN = false → b.isNaN = false → ∃ k l, ofScore a = .ok k ∧ ofScore b = .ok l ∧
      (a.value < b.value ↔ k.word < l.word) ∧ (a.value < b.value ↔ k.toBytes < l.toBytes) ∧
      (a.value = b.value ↔ k = l) ∧ k.score = if a = Binary64.zero.negate then Binary64.zero else a) ∧
    (∀ k, ofBytes? k.toBytes = some k) ∧
    (∀ s, s.length = 8 → ∃ k, ofBytes? s = some k ∧ k.toBytes = s) ∧
    ∀ s, s.length ≠ 8 → ofBytes? s = none := by
  refine ⟨?_, ofBytes?_toBytes, ?_, fun s => ofBytes?_eq_none_iff.2⟩
  · intro a b ha hb
    have hbytes : (ofNumber a).toBytes < (ofNumber b).toBytes ↔ a.value < b.value :=
      ofNumber_lt_iff.trans (Binary64.value_lt_iff ha hb).symm
    have hwords : (ofNumber a).word < (ofNumber b).word ↔ a.value < b.value := by
      rw [← hbytes, toBytes_lt_iff, UInt64.lt_iff_toNat_lt]
    have hkeys : ofNumber a = ofNumber b ↔ a.value = b.value :=
      ofNumber_eq_iff.trans (Binary64.value_eq_iff ha hb).symm
    exact ⟨ofNumber a, ofNumber b, ofScore_eq_ok_iff.2 ⟨ha, rfl⟩, ofScore_eq_ok_iff.2 ⟨hb, rfl⟩, hwords.symm,
      hbytes.symm, hkeys.symm, score_ofNumber a⟩
  · intro s hlength
    cases hread : ofBytes? s with
    | none => exact absurd hlength (ofBytes?_eq_none_iff.1 hread)
    | some k => exact ⟨k, rfl, (ofBytes?_eq_some_iff.1 hread).symm⟩

/-- The negative zero and the smallest number above the zeros. -/
theorem ofScore_embeds_least : Binary64.zero.negate.isNaN = false ∧ (⟨1⟩ : Binary64).isNaN = false ∧
    Binary64.zero.negate.value < (⟨1⟩ : Binary64).value ∧ (ofNumber Binary64.zero.negate).score = .zero := by
  have hzero : Binary64.zero.negate.isNaN = false := by decide
  have hleast : (⟨1⟩ : Binary64).isNaN = false := by decide
  obtain ⟨k, l, hk, hl, hwords, -, -, hscore⟩ := ofScore_embeds.1 Binary64.zero.negate ⟨1⟩ hzero hleast
  cases hk
  cases hl
  exact ⟨hzero, hleast, hwords.2 (by decide), hscore⟩

end ScoreKey

end OrderedStore
