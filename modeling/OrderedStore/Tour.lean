import OrderedStore.Binary64.Round
import OrderedStore.OrderedMap.Report
import OrderedStore.Store.Basic

/-!
# A short tour

A program that shows the store at work: an ordered map with longest-match look-up, a store that is paged
through after a bulk removal while a snapshot keeps what it saw, and a scored set read from the top.
-/

namespace OrderedStore.Tour

/-- The bytes of a text. -/
def bytes (s : String) : Bytes := Utf8.encode s

/-- The text of a byte string. -/
def text (s : Bytes) : String := String.ofList (Utf8.lossy s)

/-- An optional value, told apart from none. -/
def optional {α : Type} (describe : α → String) : Option α → String
  | some a => "Some(" ++ describe a ++ ")"
  | none => "None"

/-- A text in quotes. -/
def quoted (s : String) : String := Quoted.quote s.toList

def lines (ls : List String) : String := String.join (ls.map (· ++ "\n"))

/-- Routes by path: a value, the best match for a longer path, and all routes downwards. -/
def routes : Edit String := do
  let m := OrderedMap.empty String (← Edit.fresh)
  let (_, m) ← m.put (bytes "/") "root"
  let (_, m) ← m.put (bytes "/api") "api"
  let (_, m) ← m.put (bytes "/api/v1/users") "users"
  let api ← m.get? (bytes "/api")
  let hit ← m.longest? (bytes "/api/v1/users/42")
  let downwards ← m.walk.reverse.toList
  return lines <|
    ["=== RadixTree ===", "",
      "/api = " ++ optional quoted api,
      "route for /api/v1/users/42 = " ++
        optional (fun leaf => "(" ++ quoted (text leaf.key) ++ ", " ++ quoted leaf.value ++ ")") hit] ++
    downwards.map (fun leaf => "  " ++ text leaf.key ++ " -> " ++ leaf.value) ++
    ["Count: " ++ toString m.size, ""]

/-- The key of a user: a number in at least three digits. -/
def userKey (n : Nat) : Bytes := bytes "user:" ++ bytes (String.ofList (Decimal.padded 3 n))

/-- Store users by number. -/
def addUsers (s : Store) : List Nat → Except Fault Store
  | [] => return s
  | n :: ns => do
    let (_, s) ← s.set (userKey n) (bytes (toString n))
    addUsers s ns

/-- The pages of a scan, at most so many. -/
def pages (s : Store) (cursor : String) : (most : Nat) → Except Fault (List (List Bytes))
  | 0 => return []
  | most + 1 => do
    match ← s.working.scan cursor (bytes "user:") (some 8) with
    | .error _ => return []
    | .ok page =>
      let keys := page.entries.map Leaf.key
      if page.isDone then return [keys]
      return keys :: (← pages s (toString page.cursor.toNat) most)

/-- Users in a store, some of them removed after a snapshot. -/
def users : Except Fault String := do
  let s ← addUsers Store.empty (List.range 25)
  let snapshot := s.snapshot
  let (removed, s) ← s.deleteUnder (bytes "user:01")
  let found ← pages s "0" 25
  return lines <|
    ["=== Store ===", "",
      "Removed " ++ toString removed ++ " keys under user:01",
      "Live keys: " ++ toString s.working.size ++ ", snapshot keys: " ++ toString snapshot.size] ++
    found.map (fun keys => "  page: [" ++ String.intercalate ", " (keys.map Quoted.ofBytes) ++ "]") ++ [""]

/-- The members of a leaderboard with more than a hundred points, best first. -/
def leaderboard : Except Fault String := do
  let key := bytes "leaderboard"
  let item (tenths : Nat) (name : String) : ScoredSet.Item Bytes := (Binary64.ofRatio tenths 10, bytes name, [])
  let (_, s) ← Store.empty.addMembers key
    [item 3100 "carol", item 1200 "alice", item 3100 "bob", item 955 "dave"]
  let opts : RangeQuery := { withScores := true, reverse := true }
  let top ← s.working.rangeBetween key (.exclusive (.ofInt 100)) .highest opts
  let card ← s.working.card key
  return lines <|
    ["=== Sorted sets ===", ""] ++
    top.map (fun e => "  " ++ text e.member ++ " " ++ optional (Binary64.text .listing) e.score) ++
    ["Cardinality: " ++ toString card]

/-- Everything the tour prints. -/
def output : Except Fault String := do
  let (first, _) ← routes.run 0
  return first ++ (← users) ++ (← leaderboard)

end OrderedStore.Tour
