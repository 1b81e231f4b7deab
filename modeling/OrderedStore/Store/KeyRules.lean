import OrderedStore.OrderedMap.Basic

/-!
# Which keys a store accepts

A store's configuration limits the length of its keys. Unless it is told to take keys of any bytes, it
also refuses keys with control bytes, and keys that open like structured data but do not close: a key
that begins with a brace or a bracket must close every one it opens, in order. What stands between
double quotes does not count, and a backslash there takes the next byte with it.
-/

namespace OrderedStore

/-- The settings of a store. -/
structure Config where
  /-- Longer keys and members are refused. -/
  keyLimit : Nat := OrderedMap.defaultKeyLimit
  rejectControlBytes : Bool := true
  rejectMalformed : Bool := true
  /-- The page size of a scan that names none. -/
  scanCount : Nat := 10
  deriving DecidableEq, Repr

namespace Config

/-- The same settings with keys of any bytes accepted. -/
def anyBytes (c : Config) : Config := { c with rejectControlBytes := false, rejectMalformed := false }

end Config

namespace KeyRules

/-- Whether a byte is a control byte. -/
def isControl (b : UInt8) : Bool := b < 0x20 || b == 0x7f

/-- The first control byte of a key and its offset, counted from `offset`. -/
def firstControl? (offset : Nat) : Bytes → Option (UInt8 × Nat)
  | [] => none
  | b :: s => if isControl b then some (b, offset) else firstControl? (offset + 1) s

/-- Where a reader of structured data stands: outside quotes, inside them, or behind a backslash there. -/
inductive Mode
  | plain
  | quoted
  | escaped
  deriving DecidableEq, Repr

/-- The byte that closes what this one opens. -/
def closer? (b : UInt8) : Option UInt8 :=
  if b = 0x7b then some 0x7d else if b = 0x5b then some 0x5d else none

def isCloser (b : UInt8) : Bool := b == 0x7d || b == 0x5d

/-- Whether the rest of a key closes everything in `expected`, the next closing byte first, and whatever
it opens itself. -/
def balanced : Mode → (expected : List UInt8) → Bytes → Bool
  | mode, expected, [] => mode == .plain && expected.isEmpty
  | .escaped, expected, _ :: s => balanced .quoted expected s
  | .quoted, expected, b :: s =>
    balanced (if b = 0x5c then .escaped else if b = 0x22 then .plain else .quoted) expected s
  | .plain, expected, b :: s =>
    if b = 0x22 then balanced .quoted expected s
    else
      match closer? b with
      | some close => balanced .plain (close :: expected) s
      | none =>
        if isCloser b then
          match expected with
          | close :: expected => close == b && balanced .plain expected s
          | [] => false
        else balanced .plain expected s

/-- Whether a key that opens like structured data closes like it; other keys pass. -/
def wellFormed (key : Bytes) : Bool :=
  match key with
  | [] => true
  | b :: _ => (closer? b).isNone || balanced .plain [] key

/-- Refuses a key that the settings do not allow: first for its length, then for its first control byte,
then for its structure. -/
def check (c : Config) (key : Bytes) : Except InputError Unit :=
  if key.length > c.keyLimit then .error (.keyTooLong key.length c.keyLimit)
  else
    match if c.rejectControlBytes then firstControl? 0 key else none with
    | some (byte, offset) => .error (.controlByte byte offset)
    | none => if c.rejectMalformed && !wellFormed key then .error .malformedStructure else .ok ()

end KeyRules

end OrderedStore
