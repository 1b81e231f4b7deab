import OrderedStore.Binary64.Read
import OrderedStore.Fault
import OrderedStore.Text.Blank

/-!
# Score bounds

One end of a range of scores, with or without the score itself. Scores and bounds can be read from text:
white space around them does not count, and an opening parenthesis in front of a bound leaves the score
itself out.
-/

namespace OrderedStore

/-- Refuses a score that is no number. -/
def asScore (x : Binary64) : Except InputError Binary64 :=
  if x.isNaN then .error (.invalidScore "NaN") else .ok x

/-- The score that a text stands for. -/
def readScore (text : List Char) : Except InputError Binary64 :=
  match Binary64.read? (Blank.trim text) with
  | some x => if x.isNaN then .error (.invalidScore (String.ofList text)) else .ok x
  | none => .error (.invalidScore (String.ofList text))

/-- One end of a range of scores. -/
inductive ScoreBound
  | inclusive (score : Binary64)
  | exclusive (score : Binary64)
  deriving DecidableEq, Repr

namespace ScoreBound

/-- The bound below every score. -/
def lowest : ScoreBound := .inclusive .negInfinity

/-- The bound above every score. -/
def highest : ScoreBound := .inclusive .infinity

def score : ScoreBound → Binary64
  | inclusive x => x
  | exclusive x => x

def isNaN (b : ScoreBound) : Bool := b.score.isNaN

/-- Whether a score lies above this bound as the lower end of a range. -/
def admitsAbove : ScoreBound → Binary64 → Bool
  | inclusive low, x => low.atMost x
  | exclusive low, x => low.below x

/-- Whether a score lies below this bound as the upper end of a range. -/
def admitsBelow : ScoreBound → Binary64 → Bool
  | inclusive high, x => x.atMost high
  | exclusive high, x => x.below high

/-- The bound that a text stands for. -/
def read (text : List Char) : Except InputError ScoreBound :=
  match Blank.trim text with
  | '(' :: rest => .exclusive <$> readScore rest
  | _ => .inclusive <$> readScore text

end ScoreBound

end OrderedStore
