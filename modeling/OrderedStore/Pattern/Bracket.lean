import OrderedStore.Pattern.Escape
import OrderedStore.Pattern.SetExpr

/-!
# Reading bracketed sets

A bracketed set runs to its closing bracket. Its members are characters, ranges, sets behind a backslash,
sets named between colons and further bracketed sets; double signs combine what stands on either side,
from left to right.
-/

namespace OrderedStore.Pattern.SetExpr

/-- How the sets on either side of a double sign are combined. -/
inductive Sign
  | both
  | minus
  | either

/-- The set so far, combined with the one just read. -/
def combine : Option (SetExpr × Sign) → SetExpr → SetExpr
  | none, s => s
  | some (a, .both), s => .both a s
  | some (a, .minus), s => .minus a s
  | some (a, .either), s => .either a s

/-- A set named between colons, if one stands behind an opening bracket. -/
def named? (s : List Char) : Option (SetExpr × List Char) :=
  match s with
  | ':' :: s =>
    let (negated, s) := match s with
      | '^' :: s => (true, s)
      | s => (false, s)
    let name := s.takeWhile (· != ':')
    match s.drop name.length with
    | ':' :: ']' :: rest => (CharSet.ofName? (String.ofList name)).map (.named negated ·, rest)
    | _ => none
  | _ => none

/-- The beginning of a bracketed set: whether it is negated, and the hyphens or the closing bracket that
stand for themselves because they come first. -/
def start (s : List Char) : Bool × Option SetExpr × List Char :=
  let (negated, s) := match s with
    | '^' :: s => (true, s)
    | s => (false, s)
  match s with
  | '-' :: _ =>
    let hyphens := s.takeWhile (· == '-')
    (negated, hyphens.foldl (fun members c => add members (.set (.char c))) none, s.drop hyphens.length)
  | ']' :: s => (negated, some (.set (.char ']')), s)
  | s => (negated, none, s)

/-- One member of a bracketed set: a character or a set behind a backslash. -/
def member? : List Char → Option (Escape × List Char)
  | [] => none
  | '\\' :: s => Escape.read? s
  | c :: s => some (.char c, s)

/-- A member of a bracketed set, or a range between two. -/
def range? (s : List Char) : Option (CharSet × List Char) := do
  let (low, rest) ← member? s
  let single : Option (CharSet × List Char) := match low with
    | .char c => some (.char c, rest)
    | .set cs => some (cs, rest)
    | .anchor _ => none
  match rest with
  | '-' :: ']' :: _ => single
  | '-' :: '-' :: _ => single
  | '-' :: rest =>
    let (high, rest) ← member? rest
    match low, high with
    | .char a, .char b => if a ≤ b then some (⟨[(a.toNat, b.toNat)]⟩, rest) else none
    | _, _ => none
  | _ => single

/-- The rest of a bracketed set up to its closing bracket. Each round takes at least one character, so
as many rounds as there are characters are enough. -/
def rest? : (fuel : Nat) → Option (SetExpr × Sign) → Option SetExpr → List Char →
    Option (SetExpr × List Char)
  | 0, _, _, _ => none
  | fuel + 1, done, now, s =>
    match s with
    | [] => none
    | ']' :: s => some (combine done (ofMembers now), s)
    | '[' :: s =>
      match named? s with
      | some (member, s) => rest? fuel done (add now member) s
      | none =>
        let (negated, first, s) := start s
        match rest? fuel none first s with
        | some (inner, s) => rest? fuel done (add now (.bracket negated inner)) s
        | none => none
    | '&' :: '&' :: s => rest? fuel (some (combine done (ofMembers now), .both)) none s
    | '-' :: '-' :: s => rest? fuel (some (combine done (ofMembers now), .minus)) none s
    | '~' :: '~' :: s => rest? fuel (some (combine done (ofMembers now), .either)) none s
    | s =>
      match range? s with
      | some (cs, s) => rest? fuel done (add now (.set cs)) s
      | none => none

/-- Read a bracketed set, behind its opening bracket. -/
def read? (s : List Char) : Option (SetExpr × List Char) :=
  let (negated, first, s) := start s
  (rest? (s.length + 1) none first s).map fun (inner, s) => (.bracket negated inner, s)

end OrderedStore.Pattern.SetExpr
