/-!
# Anchors

What a pattern can ask of a place between two bytes.
-/

namespace OrderedStore.Pattern

/-- What holds between two bytes. -/
inductive Anchor
  | textStart
  | textEnd
  | lineStart
  | lineEnd
  | wordBoundary
  | notWordBoundary
  | wordStart
  | wordEnd
  | wordStartHalf
  | wordEndHalf
  deriving DecidableEq, Repr

end OrderedStore.Pattern
