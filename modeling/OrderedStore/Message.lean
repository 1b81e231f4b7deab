import OrderedStore.Score.Key
import OrderedStore.Text.Bytes

/-!
# Messages

The wording of faults and of input errors.
-/

namespace OrderedStore

/-- How a reference to a leaf is named; the end of a chain has the number no slot can have. -/
def Link.text (link : Link) : String :=
  "LeafId(" ++ toString ((link.map LeafId.index).getD 0xffffffff) ++ ")"

def Fault.message : Fault → String
  | dangling link => "dangling leaf reference " ++ Link.text link
  | alreadyVacant id => "double release of leaf " ++ Link.text id
  | liveSlotOnFreeList id => "free list handed out a live slot " ++ Link.text id
  | poolExhausted => "leaf arena exhausted"
  | runCutShort => "leaf run ended before its last leaf"
  | duplicateLabel label => "duplicate edge label 0x" ++ Bytes.hexByte label
  | outOfRange index size =>
    "index out of bounds: the len is " ++ toString size ++ " but the index is " ++ toString index
  | unorderedScore => "NaN score reached the score index"
  | memberNotInBucket => "member missing from its score bucket"
  | noBucket score => "no score bucket for " ++ (ScoreKey.ofNumber score).text
  | endless => "the links form a circle"

def InputError.message : InputError → String
  | keyTooLong length limit =>
    "key length " ++ toString length ++ " exceeds maximum of " ++ toString limit ++ " bytes"
  | controlByte byte offset =>
    "key contains non-printable byte 0x" ++ Bytes.hexByte byte ++ " at offset " ++ toString offset
  | malformedStructure => "key looks like malformed structured data"
  | invalidScore text => "invalid score: " ++ text
  | invalidCursor text => "invalid cursor: " ++ text
  | invalidPattern => "invalid pattern"

end OrderedStore
