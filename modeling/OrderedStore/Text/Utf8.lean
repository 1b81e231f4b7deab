import OrderedStore.Bytes

/-!
# Bytes as text

Byte strings are read as text in the variable-length encoding of one to four bytes. Reading never
fails as a whole: bytes that form no character are taken in the longest stretches that could still have
begun one, and each stretch is read as one unreadable piece. In reports an unreadable piece is shown
by the replacement character.
-/

namespace OrderedStore.Utf8

/-- Read the `missing` further bytes of a character whose bits so far are `bits`. The next byte must lie
between `low` and `high`; the ones after it may be any continuation byte. Stops in front of the first
byte that does not fit. -/
def finish : (missing : Nat) → (low high : UInt8) → (bits : Nat) → Bytes → Option Char × Bytes
  | 0, _, _, bits, s => (some (Char.ofNat bits), s)
  | _ + 1, _, _, _, [] => (none, [])
  | missing + 1, low, high, bits, b :: s =>
    if low ≤ b ∧ b ≤ high then finish missing 0x80 0xbf (bits * 64 + b.toNat % 64) s else (none, b :: s)

/-- Read one character, or one unreadable piece, that starts with the byte `b`. The bounds on the second
byte leave out long forms, surrogates and numbers past the last character. -/
def first (b : UInt8) (s : Bytes) : Option Char × Bytes :=
  if b < 0x80 then (some (Char.ofNat b.toNat), s)
  else if b < 0xc2 then (none, s)
  else if b < 0xe0 then finish 1 0x80 0xbf (b.toNat % 32) s
  else if b < 0xf0 then
    finish 2 (if b = 0xe0 then 0xa0 else 0x80) (if b = 0xed then 0x9f else 0xbf) (b.toNat % 16) s
  else if b < 0xf5 then
    finish 3 (if b = 0xf0 then 0x90 else 0x80) (if b = 0xf4 then 0x8f else 0xbf) (b.toNat % 8) s
  else (none, s)

theorem finish_length_le (missing : Nat) (low high : UInt8) (bits : Nat) (s : Bytes) :
    (finish missing low high bits s).2.length ≤ s.length := by
  fun_induction finish missing low high bits s with
  | case1 => simp
  | case2 => simp
  | case3 => simp; omega
  | case4 => simp

theorem first_length_le (b : UInt8) (s : Bytes) : (first b s).2.length ≤ s.length := by
  unfold first
  split
  · simp
  · split
    · simp
    · split
      · exact finish_length_le ..
      · split
        · exact finish_length_le ..
        · split
          · exact finish_length_le ..
          · simp

/-- The characters of a byte string; `none` for each unreadable piece. -/
def pieces : Bytes → List (Option Char)
  | [] => []
  | b :: s => (first b s).1 :: pieces (first b s).2
termination_by s => s.length
decreasing_by
  have := first_length_le b s
  simp only [List.length_cons]
  omega

/-- The text of a byte string, with the replacement character for each unreadable piece. -/
def lossy (s : Bytes) : List Char := (pieces s).map (·.getD '\ufffd')

/-- The text of a byte string that holds nothing unreadable. -/
def decode? (s : Bytes) : Option String := ((pieces s).mapM id).map String.ofList

/-- The first character of a byte string and the bytes after it, if they begin with a character. -/
def uncons? : Bytes → Option (Char × Bytes)
  | [] => none
  | b :: s =>
    match first b s with
    | (some c, rest) => some (c, rest)
    | (none, _) => none

/-- How many bytes the character of a number takes. -/
def size (n : Nat) : Nat :=
  if n < 0x80 then 1 else if n < 0x800 then 2 else if n < 0x10000 then 3 else 4

/-- The bytes of the character of a number: the first says how many there are, the others hold six bits
each. -/
def encodeNumber (n : Nat) : Bytes :=
  let further (shift : Nat) : UInt8 := (0x80 + (n >>> shift) % 64).toUInt8
  match size n with
  | 1 => [n.toUInt8]
  | 2 => [(0xc0 + (n >>> 6)).toUInt8, further 0]
  | 3 => [(0xe0 + (n >>> 12)).toUInt8, further 6, further 0]
  | _ => [(0xf0 + (n >>> 18)).toUInt8, further 12, further 6, further 0]

/-- The bytes of a text. -/
def encode (s : String) : Bytes := s.toUTF8.toList

end OrderedStore.Utf8
