import Mathlib.Tactic
import OrderedStore.Proofs.OrderedMap.Questions
import OrderedStore.Proofs.OrderedMap.Versions

/-!
# Scans that go on while the map is written

A scan keeps nothing between two pages but the fingerprint of a key. Here a scan is followed page by page through the
versions of a map that calls may write in between. As long as the last key handed out is still there when the next
page is asked for, and the keys scanned then differ in their fingerprints, the fingerprint leads back to that key, and
each page is the next stretch of the keys that are there: `Paged` says so. What the pages have in common follows from
that relation alone.
-/

namespace OrderedStore

open Edit

variable {V : Type}

/-- No key has the fingerprint that starts a scan. -/
theorem fingerprint_ne_scanStart (key : Bytes) : fingerprint key ≠ scanStart := by
  unfold fingerprint
  dsimp only
  split
  · decide
  · assumption

/-- A trace that has come to its end is no longer for more steps. -/
theorem Walk.trace_add {w : Walk V} {steps : Nat} {leaves : List (Leaf V)} (h : w.trace steps = .ofList leaves)
    (more : Nat) : w.trace (steps + more) = .ofList leaves := by
  induction steps generalizing w leaves with
  | zero => cases leaves <;> cases h
  | succ steps ih =>
      rw [Nat.succ_add, Walk.trace]
      rw [Walk.trace] at h
      cases hnext : w.next with
      | error fault =>
          rw [hnext] at h
          cases leaves <;> cases h
      | ok met =>
          rw [hnext] at h
          cases met with
          | none => exact h
          | some met =>
              cases leaves with
              | nil => cases h
              | cons leaf leaves =>
                  obtain ⟨rfl, hrest⟩ := Trace.item.inj h
                  exact congrArg (Trace.item met.1) (ih hrest)

namespace OrderedMap

/-! ## The leaves to be scanned -/

/-- The leaves whose keys start with some bytes, as a walk meets them. -/
structure LeavesUnder (m : OrderedMap V) (start : Bytes) (leaves : List (Leaf V)) : Prop where
  trace : (m.walkUnder start).trace (m.walkUnder start).fuel = .ofList leaves
  ordered : leaves.Pairwise fun a b => a.key < b.key
  starts : ∀ leaf ∈ leaves, start <+: leaf.key
  value : ∀ leaf ∈ leaves, m.get? leaf.key = .ok (some leaf.value)
  stored : ∀ leaf ∈ leaves, m.contains leaf.key = true
  found : ∀ key, start <+: key → m.contains key = true → ∃ leaf ∈ leaves, leaf.key = key

variable {m : OrderedMap V} {start : Bytes} {leaves : List (Leaf V)} {after : Option Bytes}

theorem LeavesUnder.toList (h : m.LeavesUnder start leaves) : (m.walkUnder start).toList = .ok leaves := by
  rw [Walk.toList, h.trace, Trace.toList_ofList]

theorem Holds.leavesUnder {es : List (Entry V)} (h : m.Holds es) (start : Bytes) :
    ∃ leaves, m.LeavesUnder start leaves := by
  obtain ⟨xs, ms, ys, hp, -⟩ := h.trie.covering?_parts start
  have hreads := h.walkUnder_reads hp
  obtain ⟨leaves, htrace, hitems⟩ := hreads.trace hreads.covers.length_lt_fuel
  rw [along_false, hp.within_eq] at hitems
  -- a leaf that is met has the key and the value of an entry, and every entry under the bytes is met
  have hmem : ∀ leaf ∈ leaves, ∃ e ∈ es, start <+: e.key ∧ e.item = leaf.item := by
    intro leaf hleaf
    have hitem := List.mem_map_of_mem (f := Leaf.item) hleaf
    rw [hitems, List.mem_map] at hitem
    obtain ⟨e, he, heq⟩ := hitem
    rw [List.mem_filter, decide_eq_true_eq] at he
    exact ⟨e, he.1, he.2, heq⟩
  refine ⟨leaves, htrace, ?_, ?_, ?_, ?_, ?_⟩
  · have hordered := h.trie.ordered.filter fun e => start <+: e.key
    have hkeys : leaves.map Leaf.key = (es.filter fun e => start <+: e.key).map Entry.key := by
      have hfst := congrArg (List.map Prod.fst) hitems
      rwa [List.map_map, List.map_map] at hfst
    rw [← List.pairwise_map (f := Leaf.key) (R := fun a b => a < b), hkeys, List.pairwise_map]
    exact hordered
  · intro leaf hleaf
    obtain ⟨e, -, hstarts, heq⟩ := hmem leaf hleaf
    rw [← show e.key = leaf.key from congrArg Prod.fst heq]
    exact hstarts
  · intro leaf hleaf
    obtain ⟨e, he, -, heq⟩ := hmem leaf hleaf
    exact (h.get?_iff _ _).2 ⟨e, he, congrArg Prod.fst heq, congrArg Prod.snd heq⟩
  · intro leaf hleaf
    obtain ⟨e, he, -, heq⟩ := hmem leaf hleaf
    exact (h.contains_iff _).2 ⟨e, he, congrArg Prod.fst heq⟩
  · intro key hstarts hcontains
    obtain ⟨e, he, rfl⟩ := (h.contains_iff key).1 hcontains
    have hitem : e.item ∈ leaves.map Leaf.item := by
      rw [hitems]
      exact List.mem_map_of_mem (List.mem_filter.2 ⟨he, decide_eq_true hstarts⟩)
    obtain ⟨leaf, hleaf, heq⟩ := List.mem_map.1 hitem
    exact ⟨leaf, hleaf, congrArg Prod.fst heq⟩

/-! ## One page -/

/-- Whether a key comes after the last one handed out, if there was one. -/
def past (after : Option Bytes) (key : Bytes) : Bool := after.all fun k => k < key

/-- The cursor behind the last key handed out. -/
def cursorAt (after : Option Bytes) : UInt32 := after.elim scanStart fingerprint

/-- The first page of some leaves. -/
def pageOf (leaves : List (Leaf V)) (count : Nat) : ScanPage V where
  entries := leaves.take count
  cursor :=
    match (leaves.take count).getLast?, (leaves.drop count).head? with
    | some leaf, some _ => fingerprint leaf.key
    | _, _ => scanStart

theorem pageOf_nil (count : Nat) : pageOf ([] : List (Leaf V)) count = ⟨[], scanStart⟩ := by
  simp [pageOf]

/-- A page has all the leaves that are left, or it ends at one that others come after. -/
theorem pageOf_cases (left : List (Leaf V)) (count : ℕ+) :
    pageOf left count = ⟨left, scanStart⟩ ∨
      ∃ init leaf rest, left = init ++ leaf :: rest ∧ rest ≠ [] ∧
        pageOf left count = ⟨init ++ [leaf], fingerprint leaf.key⟩ := by
  unfold pageOf
  by_cases hall : left.length ≤ count
  · rw [List.take_of_length_le hall, List.drop_of_length_le hall]
    cases left.getLast? <;> exact Or.inl rfl
  · have htake : left.take count ≠ [] := by
      intro hnil
      rcases List.take_eq_nil_iff.1 hnil with hzero | rfl
      · exact count.ne_zero hzero
      · exact hall (Nat.zero_le _)
    obtain ⟨init, leaf, hsplit⟩ := (List.eq_nil_or_concat' _).resolve_left htake
    obtain ⟨next, rest, hrest⟩ := List.exists_cons_of_ne_nil fun hnil => hall (List.drop_eq_nil_iff.1 hnil)
    refine Or.inr ⟨init, leaf, next :: rest, ?_, by simp, ?_⟩
    · rw [← List.take_append_drop count left, hsplit, hrest]
      simp
    · rw [hsplit, hrest, List.getLast?_concat]
      rfl

/-- The leaves that a page is taken from: all of them at the start, and later those behind the first leaf whose key has
the cursor for its fingerprint. -/
def behind (cursor : UInt32) (leaves : List (Leaf V)) : List (Leaf V) :=
  if cursor = scanStart then leaves else (leaves.dropWhile (fingerprint ·.key != cursor)).tail

/-- The scan can go on behind a key: it is still there, and no two of the keys scanned have one fingerprint. -/
structure GoesOnAt (m : OrderedMap V) (start key : Bytes) : Prop where
  stored : m.contains key = true
  distinct : ∀ a b, start <+: a → start <+: b → m.contains a = true → m.contains b = true →
    fingerprint a = fingerprint b → a = b

/-- Behind a leaf of an ordered list come the leaves past its key. -/
theorem filter_past {xs ys : List (Leaf V)} {leaf : Leaf V}
    (h : (xs ++ leaf :: ys).Pairwise fun a b => a.key < b.key) :
    (xs ++ leaf :: ys).filter (fun l => past (some leaf.key) l.key) = ys := by
  obtain ⟨-, hcons, hcross⟩ := List.pairwise_append.1 h
  have hxs : xs.filter (fun l => past (some leaf.key) l.key) = [] := by
    refine List.filter_eq_nil_iff.2 fun x hx => ?_
    simpa [past] using List.le_of_lt (hcross x hx leaf List.mem_cons_self)
  have hys : ys.filter (fun l => past (some leaf.key) l.key) = ys := by
    refine List.filter_eq_self.2 fun y hy => ?_
    simpa [past] using (List.pairwise_cons.1 hcons).1 y hy
  rw [List.filter_append, hxs, List.nil_append, List.filter_cons_of_neg (by simp [past]), hys]

/-- A page as it is read from what is left of a walk. -/
theorem page_ofLeaves (left : List (Leaf V)) (count : Nat) : (do
    let entries ← (Trace.take count (.ofList left)).toList
    let more ← (Trace.drop count (.ofList left)).next?
    match entries.getLast?, more with
    | some leaf, some _ => return ⟨entries, fingerprint leaf.key⟩
    | _, _ => return ⟨entries, scanStart⟩) = Except.ok (ε := Fault) (pageOf left count) := by
  rw [Trace.take_ofList, Trace.toList_ofList]
  show ((Trace.drop count (.ofList _)).next? >>= _) = _
  rw [Trace.drop_ofList, Trace.next?_ofList]
  unfold pageOf
  cases left.drop count with
  | nil => cases (left.take count).getLast? <;> rfl
  | cons next rest => cases (left.take count).getLast? <;> rfl

/-- **Every scan gives the first page of the leaves behind its cursor**, and an empty one if there are none. -/
theorem LeavesUnder.scan_behind (h : m.LeavesUnder start leaves) (cursor : UInt32) {count : Nat} (hcount : count ≠ 0) :
    m.scan cursor start count = .ok (pageOf (behind cursor leaves) count) := by
  unfold scan behind
  rw [if_neg hcount]
  dsimp only
  rw [Walk.trace_add h.trace]
  unfold resume?
  by_cases hcursor : cursor = scanStart
  · rw [if_pos hcursor, if_pos hcursor]
    exact page_ofLeaves leaves count
  · rw [if_neg hcursor, if_neg hcursor, Trace.dropWhile_ofList, Trace.next?_ofList]
    cases leaves.dropWhile (fingerprint ·.key != cursor) with
    | nil => exact congrArg Except.ok (pageOf_nil count).symm
    | cons found rest => exact page_ofLeaves rest count

/-- Behind a key that the scan can go on at come the leaves past that key. -/
theorem LeavesUnder.behind_eq (h : m.LeavesUnder start leaves)
    (hafter : ∀ key, after = some key → start <+: key ∧ m.GoesOnAt start key) :
    behind (cursorAt after) leaves = leaves.filter fun l => past after l.key := by
  unfold behind
  cases after with
  | none => exact (List.filter_eq_self.2 fun l _ => rfl).symm
  | some key =>
      obtain ⟨hstarts, hgoes⟩ := hafter key rfl
      obtain ⟨leaf, hleaf, rfl⟩ := h.found key hstarts hgoes.stored
      obtain ⟨xs, ys, rfl⟩ := List.append_of_mem hleaf
      -- the leaves before this one have other keys, so they have other fingerprints
      have hxs : ∀ x ∈ xs, (fingerprint x.key != fingerprint leaf.key) = true := by
        intro x hx
        have hmem : x ∈ xs ++ leaf :: ys := List.mem_append_left _ hx
        rw [bne_iff_ne]
        intro heq
        have hkey := hgoes.distinct _ _ (h.starts x hmem) hstarts (h.stored x hmem) hgoes.stored heq
        have hlt := (List.pairwise_append.1 h.ordered).2.2 x hx leaf List.mem_cons_self
        exact List.lt_irrefl _ (hkey ▸ hlt)
      rw [cursorAt, Option.elim_some, if_neg (fingerprint_ne_scanStart _), List.dropWhile_append_of_pos hxs,
        List.dropWhile_cons_of_neg (by simp), filter_past h.ordered]
      rfl

/-- **A scan gives the next page.** At the start that is the first page of all leaves, and behind a key that the scan
can go on at it is the first page of the leaves past that key. -/
theorem LeavesUnder.scan_eq (h : m.LeavesUnder start leaves)
    (hafter : ∀ key, after = some key → start <+: key ∧ m.GoesOnAt start key) {count : Nat} (hcount : count ≠ 0) :
    m.scan (cursorAt after) start count = .ok (pageOf (leaves.filter fun l => past after l.key) count) := by
  rw [h.scan_behind _ hcount, h.behind_eq hafter]

/-- The same of a page that goes on behind a key. -/
theorem LeavesUnder.page_cases (h : m.LeavesUnder start leaves) {count : ℕ+} {page : ScanPage V}
    (hpage : m.scan (cursorAt after) start count = .ok page)
    (hafter : ∀ key, after = some key → start <+: key ∧ m.GoesOnAt start key) :
    page = ⟨leaves.filter fun l => past after l.key, scanStart⟩ ∨
      ∃ init leaf rest, (leaves.filter fun l => past after l.key) = init ++ leaf :: rest ∧ rest ≠ [] ∧
        page = ⟨init ++ [leaf], fingerprint leaf.key⟩ := by
  obtain rfl := Except.ok.inj (hpage.symm.trans (h.scan_eq hafter count.ne_zero))
  exact pageOf_cases _ count

/-! ## Page after page -/

/-- One page of a scan, with the version of the map it was read from. -/
abbrev Reading (V : Type) := OrderedMap V × ScanPage V

/-- Each page is the next stretch of the leaves past the last key handed out. The scan is over with a page that has all
that are left, and it may be left off at any page. -/
inductive Paged (start : Bytes) : Option Bytes → List (Reading V) → Prop
  | stopped {after : Option Bytes} : Paged start after []
  | last {after : Option Bytes} {m : OrderedMap V} {leaves : List (Leaf V)} (hleaves : m.LeavesUnder start leaves) :
      Paged start after [(m, ⟨leaves.filter fun l => past after l.key, scanStart⟩)]
  | more {after : Option Bytes} {m : OrderedMap V} {leaves init rest : List (Leaf V)} {leaf : Leaf V}
      {readings : List (Reading V)} (hleaves : m.LeavesUnder start leaves)
      (hsplit : (leaves.filter fun l => past after l.key) = init ++ leaf :: rest) (hrest : rest ≠ [])
      (hreadings : Paged start (some leaf.key) readings) :
      Paged start after ((m, ⟨init ++ [leaf], fingerprint leaf.key⟩) :: readings)

/-- All that some pages hand out. -/
def emitted (readings : List (Reading V)) : List (Leaf V) := readings.flatMap fun r => r.2.entries

/-- Whether the last page ended the scan. -/
def Finished (readings : List (Reading V)) : Prop := ∃ r, readings.getLast? = some r ∧ r.2.cursor = scanStart

theorem emitted_cons (r : Reading V) (readings : List (Reading V)) :
    emitted (r :: readings) = r.2.entries ++ emitted readings := rfl

theorem past_of_lt {key next : Bytes} (h : past after key = true) (hlt : key < next) : past after next = true := by
  cases after with
  | none => rfl
  | some k => simpa [past] using List.lt_trans (by simpa [past] using h) hlt

/-- After a page that others follow the scan is over when those end it. -/
theorem Finished.tail {r : Reading V} {readings : List (Reading V)} (h : Finished (r :: readings))
    (hr : r.2.cursor ≠ scanStart) : Finished readings := by
  obtain ⟨l, hl, hcursor⟩ := h
  cases readings with
  | nil =>
      obtain rfl := Option.some.inj hl
      exact absurd hcursor hr
  | cons r' readings => exact ⟨l, by simpa using hl, hcursor⟩

theorem mem_of_page {init rest : List (Leaf V)} {leaf l : Leaf V} (hsplit : leaves = init ++ leaf :: rest)
    (hl : l ∈ init ++ [leaf]) : l ∈ leaves := by
  rw [hsplit, List.append_cons]
  exact List.mem_append_left _ hl

namespace Paged

variable {readings : List (Reading V)}

/-- Everything handed out comes after what was handed out before. -/
theorem past_emitted (h : Paged start after readings) : ∀ l ∈ emitted readings, past after l.key = true := by
  induction h with
  | stopped => simp [emitted]
  | last hleaves =>
      intro l hl
      simp only [emitted, List.flatMap_singleton, List.mem_filter] at hl
      exact hl.2
  | @more after m leaves init rest leaf readings hleaves hsplit hrest _ ih =>
      have hpage : ∀ l ∈ init ++ [leaf], past after l.key = true := fun l hl =>
        (List.mem_filter.1 (mem_of_page hsplit hl)).2
      intro l hl
      rw [emitted_cons, List.mem_append] at hl
      rcases hl with hl | hl
      · exact hpage l hl
      · exact past_of_lt (hpage leaf (by simp)) (by simpa [past] using ih l hl)

/-- **The keys handed out ascend strictly**, within a page and from page to page. -/
theorem ascending (h : Paged start after readings) : (emitted readings).Pairwise fun a b => a.key < b.key := by
  induction h with
  | stopped => exact List.Pairwise.nil
  | last hleaves =>
      rw [emitted, List.flatMap_singleton]
      exact hleaves.ordered.filter _
  | @more after m leaves init rest leaf readings hleaves hsplit hrest hreadings ih =>
      have hordered := hleaves.ordered.filter fun l => past after l.key
      rw [hsplit, List.append_cons] at hordered
      have hpage := (List.pairwise_append.1 hordered).1
      rw [emitted_cons, List.pairwise_append]
      refine ⟨hpage, ih, fun a ha b hb => ?_⟩
      have hb' : leaf.key < b.key := by simpa [past] using hreadings.past_emitted b hb
      rcases List.mem_append.1 ha with ha | ha
      · exact List.lt_trans ((List.pairwise_append.1 hpage).2.2 a ha leaf List.mem_cons_self) hb'
      · rw [List.mem_singleton.1 ha]
        exact hb'

/-- The leaves of a page are leaves of its version. -/
theorem leaves_of_mem (h : Paged start after readings) : ∀ r ∈ readings,
    ∃ leaves, r.1.LeavesUnder start leaves ∧ ∀ l ∈ r.2.entries, l ∈ leaves := by
  induction h with
  | stopped => simp
  | @last after m leaves hleaves =>
      intro r hr
      rw [List.mem_singleton.1 hr]
      exact ⟨leaves, hleaves, fun l hl => (List.mem_filter.1 hl).1⟩
  | @more after m leaves init rest leaf readings hleaves hsplit hrest hreadings ih =>
      intro r hr
      rcases List.mem_cons.1 hr with rfl | hr
      · exact ⟨leaves, hleaves, fun l hl => (List.mem_filter.1 (mem_of_page hsplit hl)).1⟩
      · exact ih r hr

/-- **A page hands back the starting cursor** exactly when no key comes after its last one. -/
theorem cursor_eq_scanStart_iff (h : Paged start after readings) : ∀ r ∈ readings, r.2.cursor = scanStart ↔
    ∀ l, r.2.entries.getLast? = some l → ∀ key, start <+: key → r.1.contains key = true → ¬ l.key < key := by
  induction h with
  | stopped => simp
  | @last after m leaves hleaves =>
      intro r hr
      rw [List.mem_singleton.1 hr]
      refine iff_of_true rfl fun l hl key hstarts hcontains hlt => ?_
      -- a key after the last one would be a later one of the leaves past the last key handed out
      obtain ⟨later, hlater, rfl⟩ := hleaves.found key hstarts hcontains
      obtain ⟨init, hinit⟩ := List.getLast?_eq_some_iff.1 hl
      have hpast := past_of_lt (List.mem_filter.1 (List.mem_of_getLast? hl)).2 hlt
      have hordered := hleaves.ordered.filter fun l => past after l.key
      have hmem : later ∈ leaves.filter fun l => past after l.key := List.mem_filter.2 ⟨hlater, hpast⟩
      dsimp only at hinit
      rw [hinit] at hordered hmem
      rcases List.mem_append.1 hmem with hmem | hmem
      · have hlt' := (List.pairwise_append.1 hordered).2.2 later hmem l List.mem_cons_self
        exact List.lt_asymm hlt hlt'
      · rw [List.mem_singleton.1 hmem] at hlt
        exact List.lt_irrefl _ hlt
  | @more after m leaves init rest leaf readings hleaves hsplit hrest hreadings ih =>
      intro r hr
      rcases List.mem_cons.1 hr with rfl | hr
      · refine iff_of_false (fingerprint_ne_scanStart _) fun hnone => ?_
        obtain ⟨next, rest, rfl⟩ := List.exists_cons_of_ne_nil hrest
        have hordered := hleaves.ordered.filter fun l => past after l.key
        rw [hsplit] at hordered
        have hlt := (List.pairwise_cons.1 (List.pairwise_append.1 hordered).2.1).1 next List.mem_cons_self
        have hnext : next ∈ leaves := by
          have hmem : next ∈ leaves.filter fun l => past after l.key := by
            rw [hsplit]
            simp
          exact (List.mem_filter.1 hmem).1
        exact hnone leaf List.getLast?_concat next.key (hleaves.starts _ hnext) (hleaves.stored _ hnext) hlt
      · exact ih r hr

/-- **A scan that is over has handed out every key** that all versions have. -/
theorem complete (h : Paged start after readings) (hdone : Finished readings) {key : Bytes} (hstarts : start <+: key)
    (hpast : past after key = true) (hkey : ∀ r ∈ readings, r.1.contains key = true) :
    key ∈ (emitted readings).map Leaf.key := by
  induction h with
  | stopped =>
      obtain ⟨r, hr, -⟩ := hdone
      simp at hr
  | @last after m leaves hleaves =>
      obtain ⟨l, hl, rfl⟩ := hleaves.found key hstarts (hkey _ List.mem_cons_self)
      rw [emitted, List.flatMap_singleton]
      exact List.mem_map_of_mem (List.mem_filter.2 ⟨hl, hpast⟩)
  | @more after m leaves init rest leaf readings hleaves hsplit hrest hreadings ih =>
      obtain ⟨l, hl, rfl⟩ := hleaves.found key hstarts (hkey _ List.mem_cons_self)
      have hmem : l ∈ init ++ leaf :: rest := by
        rw [← hsplit]
        exact List.mem_filter.2 ⟨hl, hpast⟩
      have hordered := hleaves.ordered.filter fun l => past after l.key
      rw [hsplit] at hordered
      rw [emitted_cons, List.map_append, List.mem_append]
      rw [List.append_cons] at hmem
      -- a key of this version is on this page, or it comes after it and is handed out later
      rcases List.mem_append.1 hmem with hmem | hmem
      · exact Or.inl (List.mem_map_of_mem hmem)
      · have hlt := (List.pairwise_cons.1 (List.pairwise_append.1 hordered).2.1).1 l hmem
        refine Or.inr (ih (hdone.tail (fingerprint_ne_scanStart _)) (by simpa [past] using hlt) fun r hr => ?_)
        exact hkey r (List.mem_cons_of_mem _ hr)

/-- **On a map that does not change** the pages of a scan that is over are the leaves that are to be scanned. -/
theorem emitted_eq (h : Paged start after readings) (hdone : Finished readings) (hleaves : m.LeavesUnder start leaves)
    (hsame : ∀ r ∈ readings, r.1 = m) : emitted readings = leaves.filter fun l => past after l.key := by
  induction h with
  | stopped =>
      obtain ⟨r, hr, -⟩ := hdone
      simp at hr
  | @last after m' leaves' hleaves' =>
      obtain rfl : m' = m := hsame _ List.mem_cons_self
      obtain rfl : leaves' = leaves := Except.ok.inj (hleaves'.toList.symm.trans hleaves.toList)
      rw [emitted, List.flatMap_singleton]
  | @more after m' leaves' init rest leaf readings hleaves' hsplit hrest hreadings ih =>
      obtain rfl : m' = m := hsame _ List.mem_cons_self
      obtain rfl : leaves' = leaves := Except.ok.inj (hleaves'.toList.symm.trans hleaves.toList)
      have hrec := ih (hdone.tail (fingerprint_ne_scanStart _)) fun r hr => hsame r (List.mem_cons_of_mem _ hr)
      have hordered := hleaves.ordered.filter fun l => past after l.key
      rw [hsplit] at hordered
      -- what comes after the page is past its last key, and no other leaf is
      have hpast : leaves'.filter (fun l => past (some leaf.key) l.key) = rest := by
        have hleaf : past after leaf.key = true := (List.mem_filter.1 (mem_of_page hsplit (by simp))).2
        rw [← filter_past hordered, ← hsplit, List.filter_filter]
        refine List.filter_congr fun l hl => ?_
        cases hlt : past (some leaf.key) l.key with
        | false => rfl
        | true => rw [past_of_lt hleaf (by simpa [past] using hlt), Bool.and_self]
      rw [emitted_cons, hrec, hpast, hsplit]
      simp

end Paged

/-! ## Runs of writes and pages -/

/-- Something done to a map while it is scanned: a write, or the next page, which has one entry or more. -/
inductive ScanStep (V : Type)
  | write (call : Call V)
  | page (count : ℕ+)

/-- Scan a map from a cursor on while it is written, until the scan is over. Answers the pages. -/
def scanThrough (start : Bytes) (m : OrderedMap V) (cursor : UInt32) :
    List (ScanStep V) → Edit (List (Reading V))
  | [] => return []
  | .write call :: steps => do
    let (_, m) ← m.perform call
    scanThrough start m cursor steps
  | .page count :: steps => do
    let page ← m.scan cursor start count
    if page.isDone then return [(m, page)]
    return (m, page) :: (← scanThrough start m page.cursor steps)

/-- After each page the scan can go on in the version that the next one is read from. -/
def GoesOn (start : Bytes) (readings : List (Reading V)) : Prop :=
  readings.IsChain fun before after =>
    ∀ l, before.2.entries.getLast? = some l → after.1.GoesOnAt start l.key

theorem Represents.scanThrough_comes {limit : Nat} {s : FiniteMap V} (h : Represents limit m s)
    (steps : List (ScanStep V)) (cursor : UInt32) (now : Stamp) :
    (scanThrough start m cursor steps).Comes now True fun readings =>
      (∀ r ∈ readings, ∃ leaves, r.1.LeavesUnder start leaves) ∧
        ∀ after, cursor = cursorAt after →
          (∀ key, after = some key → start <+: key ∧ ∀ r ∈ readings.head?, r.1.GoesOnAt start key) →
          GoesOn start readings → Paged start after readings := by
  induction steps generalizing m s cursor now with
  | nil => exact Comes.pure ⟨by simp, fun _ _ _ _ => .stopped⟩
  | cons step steps ih =>
      cases step with
      | write call =>
          have hcall := (h.meets call).comes (answer_exhausted call) now
          rw [scanThrough]
          refine Comes.bind (hcall.weaken fun _ => trivial) ?_
          rintro ⟨reply, m'⟩ next - ⟨s', hm'⟩
          exact ih hm' cursor next
      | page count =>
          obtain ⟨-, es, hm, -⟩ := id h
          obtain ⟨page, hpage⟩ := hm.scan_succeeds cursor start count
          obtain ⟨leaves, hleaves⟩ := hm.leavesUnder start
          rw [scanThrough, hpage, lift_ok_bind]
          by_cases hdone : page.cursor = scanStart
          · rw [if_pos (by simpa [ScanPage.isDone] using hdone)]
            refine Comes.pure ⟨by simpa using ⟨leaves, hleaves⟩, fun after hcursor hafter _ => ?_⟩
            rcases hleaves.page_cases (hcursor ▸ hpage) (fun key hkey => (hafter key hkey).imp id (· _ rfl)) with
              rfl | ⟨init, leaf, rest, -, -, rfl⟩
            · exact .last hleaves
            · exact absurd hdone (fingerprint_ne_scanStart _)
          · rw [if_neg (by simpa [ScanPage.isDone] using hdone)]
            refine Comes.bind (ih h page.cursor now) fun readings next _ hreadings => ?_
            refine Comes.pure ⟨List.forall_mem_cons.2 ⟨⟨leaves, hleaves⟩, hreadings.1⟩, fun after hcursor hafter hgoes => ?_⟩
            rcases hleaves.page_cases (hcursor ▸ hpage) (fun key hkey => (hafter key hkey).imp id (· _ rfl)) with
              rfl | ⟨init, leaf, rest, hsplit, hrest, rfl⟩
            · exact absurd rfl hdone
            · obtain ⟨hnext, hgoes⟩ := List.isChain_cons.1 hgoes
              refine .more hleaves hsplit hrest (hreadings.2 (some leaf.key) rfl ?_ hgoes)
              intro key hkey
              obtain rfl := Option.some.inj hkey
              have hleaf := (List.mem_filter.1 (mem_of_page hsplit (List.mem_append_right _ List.mem_cons_self))).1
              exact ⟨hleaves.starts leaf hleaf, fun r hr => hnext r hr leaf List.getLast?_concat⟩

/-- What the pages of a scan have in common. -/
structure ScansUnder (start : Bytes) (readings : List (Reading V)) : Prop where
  /-- No key is handed out twice, and all of them come in order. -/
  ascending : (emitted readings).Pairwise fun a b => a.key < b.key
  /-- What a page hands out is there when it is read. -/
  stored : ∀ r ∈ readings, ∀ l ∈ r.2.entries, start <+: l.key ∧ r.1.get? l.key = .ok (some l.value)
  /-- The cursor starts anew exactly when no key comes after the last one of the page. -/
  ending : ∀ r ∈ readings, r.2.cursor = scanStart ↔
    ∀ l, r.2.entries.getLast? = some l → ∀ key, start <+: key → r.1.contains key = true → ¬ l.key < key
  /-- Once the scan is over, every key that all versions have has been handed out once. -/
  complete : Finished readings → ∀ key, start <+: key → (∀ r ∈ readings, r.1.contains key = true) →
    ((emitted readings).map Leaf.key).count key = 1
  /-- On a map that does not change, the pages make up the walk under the bytes. -/
  unchanging : Finished readings → ∀ m : OrderedMap V, (∀ r ∈ readings, r.1 = m) →
    (m.walkUnder start).toList = .ok (emitted readings)

theorem Paged.scansUnder {readings : List (Reading V)} (h : Paged start none readings) : ScansUnder start readings where
  ascending := h.ascending
  stored := by
    intro r hr l hl
    obtain ⟨leaves, hleaves, hmem⟩ := h.leaves_of_mem r hr
    exact ⟨hleaves.starts l (hmem l hl), hleaves.value l (hmem l hl)⟩
  ending := h.cursor_eq_scanStart_iff
  complete := by
    intro hdone key hstarts hkey
    have hnodup : ((emitted readings).map Leaf.key).Nodup := by
      rw [List.Nodup, List.pairwise_map]
      refine h.ascending.imp ?_
      intro a b hlt heq
      exact List.lt_irrefl b.key (heq ▸ hlt)
    exact List.count_eq_one_of_mem hnodup (h.complete hdone hstarts rfl hkey)
  unchanging := by
    intro hdone m hsame
    obtain ⟨r, hr, -⟩ := id hdone
    have hmem := List.mem_of_getLast? hr
    obtain ⟨leaves, hleaves, -⟩ := h.leaves_of_mem r hmem
    rw [hsame r hmem] at hleaves
    have hall : leaves.filter (fun l => past none l.key) = leaves := List.filter_eq_self.2 fun l _ => rfl
    rw [hleaves.toList, h.emitted_eq hdone hleaves hsame, hall]

/-- **A scan goes on over writes**, for every beginning of keys and every run of writes and pages on a fresh map. If the
scan can go on after each page, its pages hand out the keys in order, each as it is there, and none is left out that was
there all the time. The only fault on the way is a pool without room. -/
theorem scans_go_on (limit : Nat) (stamp now : Stamp) (start : Bytes) (steps : List (ScanStep V)) :
    match (scanThrough start (empty V stamp limit) scanStart steps).run now with
    | .ok (readings, _) => GoesOn start readings → ScansUnder start readings
    | .error fault => fault = .poolExhausted := by
  rcases (represents_empty stamp limit).scanThrough_comes steps scanStart now with
    ⟨readings, next, hrun, -, hpaged⟩ | ⟨hrun, -⟩
  · rw [hrun]
    exact fun hgoes => (hpaged none rfl (by simp) hgoes).scansUnder
  · rw [hrun]

/-! ## Two pages with writes in between -/

/-- What a walk over the leaves tells about going on behind a key. -/
theorem LeavesUnder.goesOnAt (h : m.LeavesUnder start leaves) {key : Bytes} (hkey : key ∈ leaves.map Leaf.key)
    (hdistinct : (leaves.map fun l => fingerprint l.key).Nodup) : m.GoesOnAt start key where
  stored := by
    obtain ⟨l, hl, rfl⟩ := List.mem_map.1 hkey
    exact h.stored l hl
  distinct := by
    intro a b ha hb hma hmb heq
    obtain ⟨x, hx, rfl⟩ := h.found a ha hma
    obtain ⟨y, hy, rfl⟩ := h.found b hb hmb
    rw [List.inj_on_of_nodup_map hdistinct hx hy heq]

/-- Whether a walk finds that the scan can go on after a page. -/
def walksOn (start : Bytes) (before after : Reading V) : Bool :=
  match before.2.entries.getLast?, (after.1.walkUnder start).toList with
  | some l, .ok leaves => l.key ∈ leaves.map Leaf.key ∧ (leaves.map fun l => fingerprint l.key).Nodup
  | none, _ => true
  | _, .error _ => false

theorem goesOn_of_walksOn {readings : List (Reading V)}
    (hleaves : ∀ r ∈ readings, ∃ leaves, r.1.LeavesUnder start leaves)
    (hwalks : readings.IsChain fun before after => walksOn start before after = true) : GoesOn start readings := by
  refine hwalks.imp_of_mem_imp fun before after _ hmem hwalk l hl => ?_
  obtain ⟨leaves, h⟩ := hleaves after hmem
  rw [walksOn, hl, h.toList, decide_eq_true_eq] at hwalk
  exact h.goesOnAt hwalk.1 hwalk.2

/-- A key that goes and one that comes between two pages. -/
def writesBetween : List (ScanStep Nat) :=
  [.write (.insert [97] 1), .write (.insert [97, 98] 2), .write (.insert [97, 99] 3), .page 1, .write (.erase [97, 98]),
    .write (.insert [97, 100] 4), .page 1, .page 2]

theorem scans_go_on_between_writes :
    ∃ readings next, (scanThrough [97] (empty Nat 0 8) scanStart writesBetween).run 1 = .ok (readings, next) ∧
      GoesOn [97] readings ∧ ScansUnder [97] readings := by
  have hscan := scans_go_on (V := Nat) 8 0 1 [97] writesBetween
  have hchecked : ((scanThrough [97] (empty Nat 0 8) scanStart writesBetween).run 1).map
      (fun r => decide (r.1.IsChain fun before after => walksOn [97] before after = true)) = .ok true := by
    decide +kernel
  obtain hcomes : (scanThrough [97] (empty Nat 0 8) scanStart writesBetween).Comes 1 True _ :=
    (represents_empty 0 8).scanThrough_comes writesBetween scanStart 1
  rcases hcomes with ⟨readings, next, hrun, hleaves, -⟩ | ⟨hrun, -⟩
  · rw [hrun] at hscan hchecked
    have hgoes := goesOn_of_walksOn hleaves (of_decide_eq_true (Except.ok.inj hchecked))
    exact ⟨readings, next, hrun, hgoes, hscan hgoes⟩
  · rw [hrun] at hchecked
    cases hchecked

end OrderedMap

end OrderedStore
