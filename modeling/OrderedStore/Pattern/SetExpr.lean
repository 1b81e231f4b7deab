import OrderedStore.Pattern.CharSet

/-!
# Sets as they are written

A bracketed set in a pattern: what stands side by side is joined, double signs combine what stands on
either side of them, and brackets nest. Which characters it holds is settled by whether case matters.
Where it does not, the operands of a double sign and the contents of a bracket take in their case variants
first. That comes before a negation, so what a negated set leaves out it leaves out in either case.
-/

namespace OrderedStore.Pattern

/-- A set as it is written. -/
inductive SetExpr
  | set (s : CharSet)
  /-- A set called by its name. -/
  | named (negated : Bool) (s : CharSet)
  | union (a b : SetExpr)
  | both (a b : SetExpr)
  | minus (a b : SetExpr)
  | either (a b : SetExpr)
  | bracket (negated : Bool) (s : SetExpr)

namespace SetExpr

/-- The characters of a set, with their case variants where case does not matter. -/
def value (ignoreCase : Bool) : SetExpr → CharSet
  | set s => s
  | named negated s => negate negated (widen s)
  | union a b => (a.value ignoreCase).union (b.value ignoreCase)
  | both a b => (widen (a.value ignoreCase)).both (widen (b.value ignoreCase))
  | minus a b => (widen (a.value ignoreCase)).minus (widen (b.value ignoreCase))
  | either a b => (widen (a.value ignoreCase)).either (widen (b.value ignoreCase))
  | bracket negated s => negate negated (widen (s.value ignoreCase))
where
  widen (s : CharSet) : CharSet := if ignoreCase then s.anyCase else s
  negate (negated : Bool) (s : CharSet) : CharSet := if negated then s.negation else s

/-- Whether a set is written as several members side by side. -/
def isUnion : SetExpr → Bool
  | union .. => true
  | _ => false

/-- How deep a set nests. All members that stand side by side are one level down together. -/
def height : SetExpr → Nat
  | set _ | named .. => 0
  | union a b => max (if a.isUnion then a.height else a.height + 1) (b.height + 1)
  | both a b | minus a b | either a b => max a.height b.height + 1
  | bracket _ s => s.height + 1

/-- Write one more member behind those there are. -/
def add : Option SetExpr → SetExpr → Option SetExpr
  | none, member => some member
  | some s, member => some (.union s member)

/-- The members there are as one set. -/
def ofMembers (members : Option SetExpr) : SetExpr := members.getD (.set .none)

end SetExpr

end OrderedStore.Pattern
