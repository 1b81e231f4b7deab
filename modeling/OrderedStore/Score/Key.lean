import OrderedStore.Binary64.Text
import OrderedStore.Bytes
import OrderedStore.Fault

/-!
# Score keys

A score key is a 64-bit word that sorts as its score does. Numbers that are not negative get their sign
bit set; the others have all bits turned over, so that a greater absolute value sorts lower. The two
zeros are one score and get one key. Written out with the highest byte first, keys sort in byte order as
well, which is how scores become keys of an ordered map.
-/

namespace OrderedStore

/-- The sorting word of a score. -/
structure ScoreKey where
  word : UInt64
  deriving DecidableEq, Repr

namespace ScoreKey

/-- The key of a number. -/
def ofNumber (x : Binary64) : ScoreKey :=
  let bits := if x.magnitude = 0 then 0 else x.bits
  if bits &&& Binary64.signBit = 0 then ⟨bits ||| Binary64.signBit⟩ else ⟨~~~bits⟩

/-- The key of a score. Scores are checked on the way in, so one that is no number is a fault. -/
def ofScore (x : Binary64) : Except Fault ScoreKey :=
  if x.isNaN then .error .unorderedScore else .ok (ofNumber x)

/-- The score of a key. -/
def score (k : ScoreKey) : Binary64 :=
  if k.word &&& Binary64.signBit != 0 then ⟨k.word &&& ~~~Binary64.signBit⟩ else ⟨~~~k.word⟩

/-- Byte `i` of a word, counted from the lowest. -/
def byte (w : UInt64) (i : Nat) : UInt8 := (w >>> UInt64.ofNat (8 * i)).toUInt8

/-- The eight bytes of a key, highest first. -/
def toBytes (k : ScoreKey) : Bytes := [7, 6, 5, 4, 3, 2, 1, 0].map (byte k.word)

/-- The key with the given bytes, if there are eight. -/
def ofBytes? (s : Bytes) : Option ScoreKey :=
  if s.length = 8 then some ⟨s.foldl (fun w b => w <<< 8 ||| b.toUInt64) 0⟩ else none

/-- How a key is named in messages. -/
def text (k : ScoreKey) : String := "ScoreKey(" ++ k.score.text .full ++ ")"

end ScoreKey

end OrderedStore
