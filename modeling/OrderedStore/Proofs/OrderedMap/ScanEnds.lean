import Mathlib.Dynamics.PeriodicPts.Defs
import Mathlib.Tactic
import OrderedStore.Proofs.OrderedMap.Scan

/-!
# When a scan comes to its end

A scan of a map that does not change asks for page after page, each with the cursor of the one before. It does not end
as a matter of course. A cursor leads to the first key with its fingerprint, and where that is not the key it was made
from the scan is thrown back, for ever if it comes to the same cursor again. Three keys are enough for that.

What the next page is depends on the cursor alone. So the cursors of a scan are the iterates of one function, and the
scan ends just if the starting cursor is one of its periodic points. As every other cursor is the fingerprint of a key
that is not the last one, a scan that ends does so within as many pages as there are keys.
-/

namespace OrderedStore

open Function

/-- Iterates of a function on finitely many points come back to where they began, just if they come to no point twice
before that. -/
theorem mem_periodicPts_iff_of_finite {α : Type} [Finite α] {f : α → α} {x : α} :
    x ∈ periodicPts f ↔ ∀ i j, i < j → f^[i + 1] x = f^[j + 1] x → ∃ k ≤ j, f^[k + 1] x = x := by
  constructor
  · intro hx i j hij heq
    have hpos := minimalPeriod_pos_of_mem_periodicPts hx
    by_contra hnone
    have hlt : j + 1 < minimalPeriod f x := by
      by_contra hge
      refine hnone ⟨minimalPeriod f x - 1, by omega, ?_⟩
      rw [Nat.sub_add_cancel hpos]
      exact iterate_minimalPeriod
    have hsame := iterate_injOn_Iio_minimalPeriod (f := f) (x := x) (Set.mem_Iio.2 (by omega : i + 1 < _))
      (Set.mem_Iio.2 hlt) heq
    omega
  · intro hback
    obtain ⟨i, j, hne, heq⟩ := Finite.exists_ne_map_eq_of_infinite fun k => f^[k + 1] x
    have hcomes : ∃ k, f^[k + 1] x = x := by
      rcases Nat.lt_or_gt_of_ne hne with hlt | hlt
      · obtain ⟨k, -, hk⟩ := hback i j hlt heq
        exact ⟨k, hk⟩
      · obtain ⟨k, -, hk⟩ := hback j i hlt heq.symm
        exact ⟨k, hk⟩
    obtain ⟨k, hk⟩ := hcomes
    exact mk_mem_periodicPts (Nat.succ_pos k) hk

namespace OrderedMap

variable {V : Type} {m : OrderedMap V} {start : Bytes} {count : ℕ+} {leaves : List (Leaf V)} {cursor : UInt32}

/-- The pages of a scan of a map that does not change. -/
def scanPage (m : OrderedMap V) (start : Bytes) (count : ℕ+) : Nat → Except Fault (ScanPage V)
  | 0 => m.scan scanStart start count
  | k + 1 => do m.scan (← scanPage m start count k).cursor start count

/-- The page of this number hands back the starting cursor. -/
def DoneAt (m : OrderedMap V) (start : Bytes) (count : ℕ+) (k : Nat) : Prop :=
  (m.scanPage start count k).map ScanPage.isDone = .ok true

instance (k : Nat) : Decidable (m.DoneAt start count k) := inferInstanceAs (Decidable (_ = _))

/-- A scan of a map that does not change comes to its end. -/
def ScanEnds (m : OrderedMap V) (start : Bytes) (count : ℕ+) : Prop := ∃ k, m.DoneAt start count k

/-! ## The cursors of a scan -/

/-- The cursor that a page hands back. -/
def nextCursor (leaves : List (Leaf V)) (count : ℕ+) (cursor : UInt32) : UInt32 :=
  (pageOf (behind cursor leaves) count).cursor

theorem behind_suffix (cursor : UInt32) (leaves : List (Leaf V)) : behind cursor leaves <:+ leaves := by
  unfold behind
  split
  · exact List.suffix_rfl
  · exact (List.tail_suffix _).trans (List.dropWhile_suffix _)

/-- **The cursors are iterates**: a page is told by how many there were before it. -/
theorem LeavesUnder.scanPage_eq (h : m.LeavesUnder start leaves) (k : Nat) :
    m.scanPage start count k = .ok (pageOf (behind ((nextCursor leaves count)^[k] scanStart) leaves) count) := by
  induction k with
  | zero => exact h.scan_behind scanStart count.ne_zero
  | succ k ih =>
      rw [scanPage, ih, iterate_succ_apply']
      exact h.scan_behind _ count.ne_zero

theorem LeavesUnder.cursor_eq (h : m.LeavesUnder start leaves) {k : Nat} {page : ScanPage V}
    (hpage : m.scanPage start count k = .ok page) : page.cursor = (nextCursor leaves count)^[k + 1] scanStart := by
  obtain rfl := Except.ok.inj (hpage.symm.trans (h.scanPage_eq k))
  rw [iterate_succ_apply']
  rfl

theorem doneAt_of_page {k : Nat} {page : ScanPage V} (hpage : m.scanPage start count k = .ok page) :
    m.DoneAt start count k ↔ page.cursor = scanStart := by
  rw [DoneAt, hpage]
  show Except.ok (page.cursor == scanStart) = .ok true ↔ _
  rw [Except.ok.injEq, beq_iff_eq]

theorem LeavesUnder.doneAt_iff (h : m.LeavesUnder start leaves) (k : Nat) :
    m.DoneAt start count k ↔ (nextCursor leaves count)^[k + 1] scanStart = scanStart := by
  rw [doneAt_of_page (h.scanPage_eq k), h.cursor_eq (h.scanPage_eq k)]

/-- **A scan ends** just if its cursors come back to the starting one. -/
theorem LeavesUnder.scanEnds_iff (h : m.LeavesUnder start leaves) :
    m.ScanEnds start count ↔ scanStart ∈ periodicPts (nextCursor leaves count) := by
  constructor
  · rintro ⟨k, hdone⟩
    exact mk_mem_periodicPts (Nat.succ_pos k) ((h.doneAt_iff k).1 hdone)
  · rintro ⟨n, hpos, hback⟩
    refine ⟨n - 1, (h.doneAt_iff _).2 ?_⟩
    rw [Nat.sub_add_cancel hpos]
    exact hback

/-! ## How soon -/

/-- Every other cursor is the fingerprint of a key that others come after. -/
theorem nextCursor_mem (hcursor : nextCursor leaves count cursor ≠ scanStart) :
    nextCursor leaves count cursor ∈ (leaves.dropLast.map fun l => fingerprint l.key).toFinset := by
  obtain ⟨passed, hpassed⟩ := behind_suffix cursor leaves
  unfold nextCursor at hcursor ⊢
  rcases pageOf_cases (behind cursor leaves) count with hpage | ⟨init, leaf, rest, hsplit, hrest, hpage⟩
  · exact absurd (congrArg ScanPage.cursor hpage) hcursor
  · rw [hpage, List.mem_toFinset, ← hpassed, hsplit, ← List.append_assoc, List.append_cons,
      List.dropLast_append_of_ne_nil hrest]
    exact List.mem_map_of_mem (by simp)

/-- **A scan that ends** does so within as many pages as there are keys. -/
theorem LeavesUnder.ends_soon (h : m.LeavesUnder start leaves) (hends : m.ScanEnds start count) :
    ∃ k < max 1 leaves.length, m.DoneAt start count k := by
  have hpos := minimalPeriod_pos_of_mem_periodicPts (h.scanEnds_iff.1 hends)
  have hinj := iterate_injOn_Iio_minimalPeriod (f := nextCursor leaves count) (x := scanStart)
  generalize hperiod : minimalPeriod (nextCursor leaves count) scanStart = period at hpos hinj
  -- before the last page the cursors are different fingerprints
  have hcard : (Finset.range (period - 1)).card ≤ (leaves.dropLast.map fun l => fingerprint l.key).toFinset.card := by
    refine Finset.card_le_card_of_injOn (fun i => (nextCursor leaves count)^[i + 1] scanStart) ?_ ?_
    · intro i hi
      rw [Finset.coe_range, Set.mem_Iio] at hi
      dsimp only
      have hnext := iterate_succ_apply' (nextCursor leaves count) i scanStart
      rw [hnext]
      refine nextCursor_mem fun hback => ?_
      have hzero := hinj (Set.mem_Iio.2 (by omega : i + 1 < period)) (Set.mem_Iio.2 hpos) (hnext.trans hback)
      omega
    · intro i hi j hj heq
      rw [Finset.coe_range, Set.mem_Iio] at hi hj
      have hsame := hinj (Set.mem_Iio.2 (by omega : i + 1 < period)) (Set.mem_Iio.2 (by omega : j + 1 < period)) heq
      omega
  have hlength := hcard.trans (List.toFinset_card_le _)
  rw [Finset.card_range, List.length_map, List.length_dropLast] at hlength
  refine ⟨period - 1, by omega, (h.doneAt_iff _).2 ?_⟩
  rw [Nat.sub_add_cancel hpos, ← hperiod]
  exact iterate_minimalPeriod

/-! ## Scans that are never thrown back -/

/-- If no leaf before a page has the fingerprint of the page's last key, the next page is taken from fewer leaves. -/
theorem behind_shorter {passed left : List (Leaf V)} {leaf : Leaf V} (hleaf : leaf ∈ left)
    (hpassed : ∀ l ∈ passed, fingerprint l.key ≠ fingerprint leaf.key) :
    (behind (fingerprint leaf.key) (passed ++ left)).length < left.length := by
  have hpos : 0 < left.length := List.length_pos_of_mem hleaf
  have hskip : ∀ l ∈ passed, (fingerprint l.key != fingerprint leaf.key) = true := fun l hl => bne_iff_ne.2 (hpassed l hl)
  have hle := (List.dropWhile_suffix (l := left) (fingerprint ·.key != fingerprint leaf.key)).length_le
  rw [behind, if_neg (fingerprint_ne_scanStart _), List.dropWhile_append_of_pos hskip, List.length_tail]
  omega

/-- No page ends at a key whose fingerprint is also that of a key before the page. -/
def NeverThrownBack (m : OrderedMap V) (start : Bytes) (count : ℕ+) : Prop :=
  ∀ k page first last, m.scanPage start count k = .ok page → page.isDone = false →
    page.entries.head? = some first → page.entries.getLast? = some last →
    ∀ key, start <+: key → m.contains key = true → key < first.key → fingerprint key ≠ fingerprint last.key

/-- **A scan that is never thrown back ends**, by induction on how many leaves it has left. -/
theorem LeavesUnder.ends_of_neverThrownBack (h : m.LeavesUnder start leaves) (hforth : m.NeverThrownBack start count)
    (k : Nat) : m.ScanEnds start count := by
  induction hleft : (behind ((nextCursor leaves count)^[k] scanStart) leaves).length using Nat.strongRecOn
    generalizing k with
  | ind n ih =>
      subst hleft
      have hpage : m.scanPage start count k = _ := h.scanPage_eq k
      rcases pageOf_cases (behind ((nextCursor leaves count)^[k] scanStart) leaves) count with
        hlast | ⟨init, leaf, rest, hsplit, -, hmore⟩
      · rw [hlast] at hpage
        exact ⟨k, (doneAt_of_page hpage).2 rfl⟩
      · rw [hmore] at hpage
        obtain ⟨first, hfirst⟩ : ∃ first, (init ++ [leaf]).head? = some first := ⟨_, List.head?_eq_some_head (by simp)⟩
        obtain ⟨passed, hpassed⟩ := behind_suffix ((nextCursor leaves count)^[k] scanStart) leaves
        have hordered := h.ordered
        rw [← hpassed] at hordered
        -- the leaves before this page have lesser keys than its first one
        have hdiffer : ∀ l ∈ passed, fingerprint l.key ≠ fingerprint leaf.key := by
          intro l hl
          have hmem : l ∈ leaves := by
            rw [← hpassed]
            exact List.mem_append_left _ hl
          have hfirst' : first ∈ behind ((nextCursor leaves count)^[k] scanStart) leaves := by
            rw [hsplit, List.append_cons]
            exact List.mem_append_left _ (List.mem_of_head? hfirst)
          refine hforth k _ first leaf hpage ?_ hfirst List.getLast?_concat l.key (h.starts l hmem) (h.stored l hmem)
            ((List.pairwise_append.1 hordered).2.2 l hl first hfirst')
          simpa [ScanPage.isDone] using fingerprint_ne_scanStart leaf.key
        have hleaf : leaf ∈ behind ((nextCursor leaves count)^[k] scanStart) leaves := by
          rw [hsplit]
          simp
        have hshorter := behind_shorter hleaf hdiffer
        have hnext := h.cursor_eq hpage
        rw [hpassed] at hshorter
        dsimp only at hnext
        rw [hnext] at hshorter
        exact ih _ hshorter (k + 1) rfl

/-- Without two keys of one fingerprint no scan is thrown back. -/
theorem LeavesUnder.neverThrownBack (h : m.LeavesUnder start leaves)
    (hdistinct : ∀ a b, start <+: a → start <+: b → m.contains a = true → m.contains b = true →
      fingerprint a = fingerprint b → a = b) : m.NeverThrownBack start count := by
  intro k page first last hpage _ hfirst hlast key hstarts hcontains hlt heq
  obtain rfl := Except.ok.inj (hpage.symm.trans (h.scanPage_eq k))
  have hpart : (pageOf (behind ((nextCursor leaves count)^[k] scanStart) leaves) count).entries.Sublist leaves :=
    (List.take_sublist _ _).trans (behind_suffix _ leaves).sublist
  have hmem := hpart.subset (List.mem_of_getLast? hlast)
  obtain rfl := hdistinct key last.key hstarts (h.starts last hmem) hcontains (h.stored last hmem) heq
  -- the last key of a page is not below its first one
  obtain ⟨others, hentries⟩ := List.head?_eq_some_iff.1 hfirst
  have hordered := h.ordered.sublist hpart
  have hlast' := List.mem_of_getLast? hlast
  rw [hentries] at hordered hlast'
  rcases List.mem_cons.1 hlast' with rfl | hothers
  · exact List.lt_irrefl _ hlt
  · exact List.lt_asymm hlt ((List.pairwise_cons.1 hordered).1 last hothers)

/-! ## The course of a scan -/

/-- What can be said of a scan of a map that does not change, whatever the fingerprints of its keys. -/
structure ScanCourse (m : OrderedMap V) (start : Bytes) (count : ℕ+) : Prop where
  /-- Every page is given. -/
  answered : ∀ k, ∃ page, m.scanPage start count k = .ok page
  /-- The scan ends unless a cursor is handed back a second time before that. -/
  ends_iff : m.ScanEnds start count ↔ ∀ i j p q, i < j → m.scanPage start count i = .ok p →
    m.scanPage start count j = .ok q → p.cursor = q.cursor → ∃ k ≤ j, m.DoneAt start count k
  /-- It ends within as many pages as there are keys to be scanned, and with the first page if there is none, or it
  never ends. -/
  soon : ∃ leaves, (m.walkUnder start).toList = .ok leaves ∧
    (m.ScanEnds start count → ∃ k < max 1 leaves.length, m.DoneAt start count k)
  /-- It ends if no page ends at a key whose fingerprint is also that of a key before the page. -/
  forth : m.NeverThrownBack start count → m.ScanEnds start count
  /-- So it ends if the keys to be scanned have different fingerprints. -/
  distinct : (∀ a b, start <+: a → start <+: b → m.contains a = true → m.contains b = true →
    fingerprint a = fingerprint b → a = b) → m.ScanEnds start count

/-- **How a scan goes**, for every map that calls lead to, every beginning of keys and every size of pages but zero. -/
theorem scanCourse_of_reachable (h : m.Reachable) (start : Bytes) (count : ℕ+) : m.ScanCourse start count := by
  obtain ⟨limit, s, -, es, hm, -⟩ := h.represents
  obtain ⟨leaves, hleaves⟩ := hm.leavesUnder start
  have hforth : m.NeverThrownBack start count → m.ScanEnds start count := fun h => hleaves.ends_of_neverThrownBack h 0
  refine ⟨fun k => ⟨_, hleaves.scanPage_eq k⟩, ?_, ⟨leaves, hleaves.toList, hleaves.ends_soon⟩, hforth,
    fun hdistinct => hforth (hleaves.neverThrownBack hdistinct)⟩
  have : Finite UInt32 := Finite.of_injective UInt32.toFin fun a b => UInt32.toFin_inj.1
  rw [hleaves.scanEnds_iff, mem_periodicPts_iff_of_finite]
  refine forall₂_congr fun i j => ?_
  constructor
  · intro hback p q hij hp hq heq
    rw [hleaves.cursor_eq hp, hleaves.cursor_eq hq] at heq
    obtain ⟨k, hk, hdone⟩ := hback hij heq
    exact ⟨k, hk, (hleaves.doneAt_iff k).2 hdone⟩
  · intro hback hij heq
    have hi : m.scanPage start count i = _ := hleaves.scanPage_eq i
    have hj : m.scanPage start count j = _ := hleaves.scanPage_eq j
    obtain ⟨k, hk, hdone⟩ := hback _ _ hij hi hj (by rw [hleaves.cursor_eq hi, hleaves.cursor_eq hj, heq])
    exact ⟨k, hk, (hleaves.doneAt_iff k).1 hdone⟩

/-! ## A scan that never ends -/

/-- Three keys, the first two of which have one fingerprint. -/
def colliding : OrderedMap Nat :=
  afterAll perform (empty Nat 0 8) 1
    [.insert [55, 121, 102, 97] 1, .insert [101, 54, 117, 117] 2, .insert [122] 3]

theorem colliding_reachable : colliding.Reachable := ⟨0, 8, LeadsTo.here.afterAll 1 _⟩

/-- In pages of one key the scan goes from the first key to the second one, and from there to the second one again. -/
theorem colliding_scan_never_ends : colliding.Reachable ∧ ¬ colliding.ScanEnds [] 1 := by
  have hfirst : (colliding.scan scanStart [] 1).map ScanPage.cursor = .ok 678693696 := by decide +kernel
  have hagain : (colliding.scan 678693696 [] 1).map ScanPage.cursor = .ok 678693696 := by decide +kernel
  have hstuck : ∀ k, ∃ page, colliding.scanPage [] 1 k = .ok page ∧ page.cursor = 678693696 := by
    intro k
    induction k with
    | zero => exact exists_of_map_eq_ok hfirst
    | succ k ih =>
        obtain ⟨page, hpage, hcursor⟩ := ih
        rw [← hcursor] at hagain
        rw [scanPage, hpage]
        exact exists_of_map_eq_ok (hagain.trans (congrArg _ hcursor))
  refine ⟨colliding_reachable, ?_⟩
  rintro ⟨k, hdone⟩
  obtain ⟨page, hpage, hcursor⟩ := hstuck k
  rw [doneAt_of_page hpage, hcursor] at hdone
  exact absurd hdone (by decide)

/-- In pages of two keys it ends, though the fingerprints are the same. -/
theorem colliding_scanCourse : colliding.Reachable ∧ colliding.ScanCourse [] 2 ∧ colliding.DoneAt [] 2 1 :=
  ⟨colliding_reachable, scanCourse_of_reachable colliding_reachable [] 2, by decide +kernel⟩

end OrderedMap

end OrderedStore
