import OrderedStore.Pattern.Anchor
import OrderedStore.Pattern.CharSet

/-!
# Escapes

What a backslash and the characters behind it stand for: a character, a set of characters or an anchor.
-/

namespace OrderedStore.Pattern

/-- An escape stands for a character, a set or an anchor. -/
inductive Escape
  | char (c : Char)
  | set (s : CharSet)
  | anchor (a : Anchor)

namespace Escape

/-- The value of a hexadecimal digit. -/
def hexDigit? (c : Char) : Option Nat :=
  if '0' ≤ c ∧ c ≤ '9' then some (c.toNat - 48)
  else if 'a' ≤ c ∧ c ≤ 'f' then some (c.toNat - 87)
  else if 'A' ≤ c ∧ c ≤ 'F' then some (c.toNat - 55)
  else none

/-- The character with the given hexadecimal number. -/
def hexChar? (digits : List Char) : Option Char := do
  if digits.isEmpty then none
  let values ← digits.mapM hexDigit?
  let n := values.foldl (fun n d => 16 * n + d) 0
  if n.isValidChar then some (Char.ofNat n) else none

/-- A character by number: in braces, or with the fixed number of digits that belongs to the letter. -/
def hexEscape? (width : Nat) (s : List Char) : Option (Char × List Char) :=
  match s with
  | '\x7b' :: s =>
    let digits := s.takeWhile (· != '\x7d')
    match s.drop digits.length with
    | _ :: rest => (hexChar? digits).map (·, rest)
    | [] => none
  | s => if s.length < width then none else (hexChar? (s.take width)).map (·, s.drop width)

/-- What a backslash may be followed by, besides the letters with a meaning of their own. -/
def isPlain (c : Char) : Bool := c.toNat < 0x80 && !c.isAlphanum && c != '<' && c != '>'

/-- The kinds of word boundary that are named in braces. A brace with anything but letters and hyphens
behind it is none. -/
def namedBoundary? (s : List Char) : Option (Option (Anchor × List Char)) :=
  match s with
  | '\x7b' :: rest =>
    let isNameChar (c : Char) : Bool := c.isAlpha || c == '-'
    if !rest.head?.any isNameChar then some none
    else
      let name := rest.takeWhile isNameChar
      match rest.drop name.length with
      | '\x7d' :: rest =>
        match String.ofList name with
        | "start" => some (some (.wordStart, rest))
        | "end" => some (some (.wordEnd, rest))
        | "start-half" => some (some (.wordStartHalf, rest))
        | "end-half" => some (some (.wordEndHalf, rest))
        | _ => none
      | _ => none
  | _ => some none

/-- Read what follows a backslash. -/
def read? : List Char → Option (Escape × List Char)
  | [] => none
  | c :: s =>
    match CharSet.ofLetter? c with
    | some cs => some (.set cs, s)
    | none =>
      match c with
      | 'x' => (hexEscape? 2 s).map fun (c, s) => (.char c, s)
      | 'u' => (hexEscape? 4 s).map fun (c, s) => (.char c, s)
      | 'U' => (hexEscape? 8 s).map fun (c, s) => (.char c, s)
      | 'a' => some (.char '\x07', s)
      | 'f' => some (.char '\x0c', s)
      | 't' => some (.char '\t', s)
      | 'n' => some (.char '\n', s)
      | 'r' => some (.char '\r', s)
      | 'v' => some (.char '\x0b', s)
      | 'A' => some (.anchor .textStart, s)
      | 'z' => some (.anchor .textEnd, s)
      | 'b' => (namedBoundary? s).map fun
        | some (a, s) => (.anchor a, s)
        | none => (.anchor .wordBoundary, s)
      | 'B' => some (.anchor .notWordBoundary, s)
      | '<' => some (.anchor .wordStart, s)
      | '>' => some (.anchor .wordEnd, s)
      | c => if isPlain c then some (.char c, s) else none

end Escape

end OrderedStore.Pattern
