import OrderedStore.Bytes

/-!
# Texts to choose from, as a tree

The texts of a choice, merged where they begin alike. Which text comes first matters: a text is merged only
with those that come after the last text that ended at the same point. So a point of the tree holds its
edges in chunks, and between two chunks a text ends.
-/

namespace OrderedStore.Pattern

/-- A point of the tree: the chunks of edges that are done, last first, and the one that still grows. -/
inductive TextTree
  | point (done : List (List (UInt8 × TextTree))) (now : List (UInt8 × TextTree))

namespace TextTree

/-- A point that nothing goes on from. -/
def leaf : TextTree := .point [] []

/-- Change what a byte leads to. -/
def alter (b : UInt8) (change : TextTree → TextTree) : List (UInt8 × TextTree) → List (UInt8 × TextTree)
  | [] => [(b, change leaf)]
  | (c, t) :: edges => if b = c then (c, change t) :: edges else (c, t) :: alter b change edges

/-- Add a text. Where a text ends, the chunk that grows is done; a second text that ends at a point with
no edges ends there already. -/
def insert : Bytes → TextTree → TextTree
  | [], .point done now =>
    if now.isEmpty && done.all List.isEmpty && !done.isEmpty then .point done now
    else .point (now :: done) []
  | b :: s, .point done now => .point done (alter b (insert s) now)

/-- The tree of texts, added from first to last. -/
def ofTexts (texts : List Bytes) : TextTree := texts.foldl (fun t s => t.insert s) leaf

end TextTree

end OrderedStore.Pattern
