import OrderedStore.Pattern.Bracket
import OrderedStore.Text.Alphabetic
import OrderedStore.Text.Decimal
import OrderedStore.Text.Numeric

/-!
# Pattern tokens

A pattern is first cut into tokens: characters, sets of characters, anchors, brackets of groups, bars and
repetition marks. What a token means may still depend on the flags in force where it stands; those are
settled when the tokens are put together.
-/

namespace OrderedStore.Pattern

/-- The switches that change how a pattern is read. -/
inductive Flag
  /-- Case does not matter. -/
  | ignoreCase
  /-- Line anchors hold at every line. -/
  | multiLine
  /-- The dot stands for line ends as well. -/
  | dotAll
  /-- Repetitions are lazy unless marked. -/
  | swapGreed
  /-- Characters of all scripts, not bytes. Always in force. -/
  | unicode
  deriving DecidableEq, Repr

/-- What an opening parenthesis begins. -/
inductive GroupStart
  /-- A group that is counted, with its name if it has one. -/
  | counted (name : Option (List Char))
  /-- A group that only holds its parts together, and the flags set for it. -/
  | plain (flags : List (Flag × Bool))

/-- A piece of a pattern. -/
inductive Token
  | char (c : Char)
  | set (s : SetExpr)
  | dot
  | caret
  | dollar
  | anchor (a : Anchor)
  | groupOpen (start : GroupStart)
  | flags (changes : List (Flag × Bool))
  | groupClose
  | bar
  /-- A repetition; the mark behind it turns its greed around. -/
  | times (least : Nat) (most : Option Nat) (marked : Bool)

namespace Token

/-! ## Repetitions and groups -/

/-- The largest count a repetition may name. -/
def countLimit : Nat := 0x100000000

/-- A count with white space around it. -/
def count? (s : List Char) : Option (Nat × List Char) := do
  let s := s.dropWhile Blank.isBlank
  let n ← Decimal.read? (s.takeWhile Decimal.isDigit)
  if n < countLimit then some (n, (s.dropWhile Decimal.isDigit).dropWhile Blank.isBlank) else none

/-- Counts in braces, behind the opening one. -/
def counts? (s : List Char) : Option (Nat × Option Nat × List Char) := do
  let (least, s) ← count? s
  match s with
  | '\x7d' :: s => some (least, some least, s)
  | ',' :: '\x7d' :: s => some (least, none, s)
  | ',' :: s =>
    let (most, s) ← count? s
    match s with
    | '\x7d' :: s => if least ≤ most then some (least, some most, s) else none
    | _ => none
  | _ => none

/-- A repetition and the question mark that may follow it. -/
def repetition (least : Nat) (most : Option Nat) : List Char → Token × List Char
  | '?' :: s => (.times least most true, s)
  | s => (.times least most false, s)

/-- The flag that a letter stands for. -/
def flag? : Char → Option Flag
  | 'i' => some .ignoreCase
  | 'm' => some .multiLine
  | 's' => some .dotAll
  | 'U' => some .swapGreed
  | 'u' => some .unicode
  | _ => none

/-- Flags up to a colon or a closing parenthesis, each at most once, those behind a hyphen turned off. -/
def flags? : (on : Bool) → List (Flag × Bool) → List Char → Option (List (Flag × Bool) × List Char)
  | _, _, [] => none
  | on, found, c :: s =>
    if c = ':' ∨ c = ')' then some (found, c :: s)
    else if c = '-' then
      match s.head? with
      | none => none
      | some next => if !on ∨ next = ':' ∨ next = ')' then none else flags? false found s
    else
      match flag? c with
      | none => none
      | some f =>
        if found.any (·.1 = f) ∨ (f = .unicode ∧ !on) then none else flags? on (found ++ [(f, on)]) s

/-- Whether a character may stand in the name of a group. A name begins with a letter or an underscore. -/
def isNameChar (first : Bool) (c : Char) : Bool :=
  c == '_' || Alphabetic.isAlphabetic c ||
    (!first && (Numeric.isNumeric c || c == '.' || c == '[' || c == ']'))

/-- The name of a group, up to the angle bracket that closes it. -/
def name? (s : List Char) : Option (List Char × List Char) :=
  let name := s.takeWhile (· != '>')
  match name, s.drop name.length with
  | c :: cs, _ :: rest =>
    if isNameChar true c && cs.all (isNameChar false) then some (c :: cs, rest) else none
  | _, _ => none

/-- What follows an opening parenthesis. -/
def group? : List Char → Option (Token × List Char)
  | '?' :: 'P' :: '<' :: s => (name? s).map fun (name, s) => (.groupOpen (.counted (some name)), s)
  | '?' :: '<' :: '=' :: _ => none
  | '?' :: '<' :: '!' :: _ => none
  | '?' :: '<' :: s => (name? s).map fun (name, s) => (.groupOpen (.counted (some name)), s)
  | '?' :: s =>
    match flags? true [] s with
    | some (found, ':' :: s) => some (.groupOpen (.plain found), s)
    | some (found, ')' :: s) => if found.isEmpty then none else some (.flags found, s)
    | _ => none
  | s => some (.groupOpen (.counted none), s)

/-! ## All tokens -/

/-- The first token of a text. -/
def first? : List Char → Option (Token × List Char)
  | [] => none
  | c :: s =>
    match c with
    | '(' => group? s
    | ')' => some (.groupClose, s)
    | '|' => some (.bar, s)
    | '.' => some (.dot, s)
    | '^' => some (.caret, s)
    | '$' => some (.dollar, s)
    | '*' => some (repetition 0 none s)
    | '+' => some (repetition 1 none s)
    | '?' => some (repetition 0 (some 1) s)
    | '\x7b' => (counts? s).map fun (least, most, s) => repetition least most s
    | '[' => (SetExpr.read? s).map fun (cs, s) => (.set cs, s)
    | '\\' => (Escape.read? s).map fun
      | (.char c, s) => (.char c, s)
      | (.set cs, s) => (.set (.set cs), s)
      | (.anchor a, s) => (.anchor a, s)
    | c => some (.char c, s)

/-- The tokens of a text. Each takes at least one character. -/
def all? : (fuel : Nat) → List Char → Option (List Token)
  | _, [] => some []
  | 0, _ => none
  | fuel + 1, s =>
    match first? s with
    | none => none
    | some (token, s) => (all? fuel s).map (token :: ·)

end Token

end OrderedStore.Pattern
