import Mathlib.Tactic
import OrderedStore.Proofs.Pool.Ledger
import OrderedStore.Proofs.Pool.Strand

/-!
# A pool does what its ledger says

A pool stands for a ledger when its leaves are the ledger's, its tower reaches as far as the ledger's peak needs,
and its free list runs through the ledger's vacant numbers in the ledger's order. Every call keeps that. A write
goes to a slot that holds a leaf, and the free list runs through the others. A leaf is put where the free list
starts, and that slot is the number given back last; or, when the list is empty, in the slot that comes next,
and then as many leaves are live as ever were. Two claims about all runs of calls follow: a pool is a map from
numbers to leaves at every size, and its free list is right.
-/

namespace OrderedStore.Pool

open Edit

variable {V : Type}

/-- A pool and the ledger it keeps. -/
structure Represents (p : Pool V) (s : Ledger V) : Prop extends p.Extent where
  leaves : p.leaf? = s.leaf?
  listed : ∀ id, id ∈ s.live ↔ (s.leaf? id).isSome
  live : p.live = s.live.card
  peak : p.opened = s.peak
  run : FreeRun p.slot? p.free s.vacated
  nodup : s.released.Nodup
  vacant : ∀ id, id ∈ s.vacated ↔ id.index < p.opened ∧ p.leaf? id = none
  count : p.live + s.vacated.length = p.opened

theorem represents_empty : (empty : Pool V).Represents {} where
  toExtent := extent_empty
  leaves := funext fun _ => rfl
  listed := by simp
  live := rfl
  peak := rfl
  run := rfl
  nodup := List.nodup_nil
  vacant := by simp [empty, Ledger.vacated]
  count := rfl

variable {p : Pool V} {s : Ledger V}

namespace Represents

theorem nodup_vacated (h : p.Represents s) : s.vacated.Nodup := h.nodup.filter _

theorem get_eq (h : p.Represents s) (link : Link) : p.get link = s.get link := by
  cases hleaf : link.bind s.leaf? with
  | none =>
      rw [Ledger.get_none hleaf]
      unfold Pool.get
      rw [h.leaves, hleaf]
  | some leaf =>
      obtain ⟨id, rfl, hl⟩ := Option.bind_eq_some_iff.1 hleaf
      rw [Ledger.get_some hl, get_ok (h.leaves ▸ hl)]

theorem nextOf_eq (h : p.Represents s) (link : Link) : p.nextOf link = s.nextOf link := by
  unfold Pool.nextOf Ledger.nextOf
  rw [h.get_eq]

theorem prevOf_eq (h : p.Represents s) (link : Link) : p.prevOf link = s.prevOf link := by
  unfold Pool.prevOf Ledger.prevOf
  rw [h.get_eq]

theorem index_lt (h : p.Represents s) {id : LeafId} {leaf : Leaf V} (hl : s.leaf? id = some leaf) :
    id.index < p.opened := h.toLaidOut.index_lt (h.leaves ▸ hl)

/-- A number without a leaf is not among the live ones. -/
theorem card_insert (h : p.Represents s) {id : LeafId} (hnone : s.leaf? id = none) :
    (insert id s.live).card = s.live.card + 1 :=
  Finset.card_insert_of_notMem fun hid => by simpa [hnone] using (h.listed id).1 hid

/-- The number to be given out next leads nowhere yet. -/
theorem leaf?_next (h : p.Represents s) : s.leaf? s.next = none := by
  cases hvacated : s.vacated with
  | cons id rest =>
      rw [Ledger.next_of_cons hvacated]
      have hid : id ∈ s.vacated := by
        rw [hvacated]
        exact List.mem_cons_self
      exact (Ledger.mem_vacated.1 hid).2
  | nil =>
      rw [Ledger.next_of_nil hvacated]
      cases hl : s.leaf? ⟨s.peak⟩ with
      | none => rfl
      | some leaf => exact absurd (h.index_lt hl) (by simp [h.peak])

theorem not_mem_vacated (h : p.Represents s) {id : LeafId} (hl : p.leaf? id ≠ none) : id ∉ s.vacated :=
  fun hid => hl ((h.vacant id).1 hid).2

/-- A pool with a leaf stored under `id` stands for a ledger with it, if its free list runs through the other
vacant numbers. -/
theorem of_store (h : p.Represents s) {p' : Pool V} {s' : Ledger V} {id : LeafId} {leaf : Leaf V}
    (hextent : p'.Extent) (hleaf : p'.leaf? = Function.update p.leaf? id (some leaf))
    (hopen : ∀ id', id' ≠ id → (id'.index < p'.opened ↔ id'.index < p.opened))
    (hleaf' : s'.leaf? = Function.update s.leaf? id (some leaf)) (hlisted : s'.live = insert id s.live)
    (hreleased : s'.released = s.released) (hpeak : p'.opened = s'.peak) (hlive : p'.live = s'.live.card)
    (hrun : FreeRun p'.slot? p'.free (s.vacated.filter (· ≠ id)))
    (hcount : p'.live + (s.vacated.filter (· ≠ id)).length = p'.opened) : p'.Represents s' := by
  have hvacated := Ledger.vacated_store s s' hleaf' hreleased
  refine ⟨hextent, ?_, ?_, hlive, hpeak, ?_, hreleased ▸ h.nodup, ?_, ?_⟩
  · rw [hleaf, hleaf', h.leaves]
  · intro id'
    rw [hlisted, hleaf', Finset.mem_insert, h.listed]
    by_cases heq : id' = id
    · simp [heq]
    · simp [heq]
  · rw [hvacated]
    exact hrun
  · intro id'
    rw [hvacated, hleaf, List.mem_filter, h.vacant]
    by_cases heq : id' = id
    · simp [heq]
    · rw [Function.update_of_ne heq, hopen id' heq]
      simp [heq]
  · rw [hvacated]
    exact hcount

/-! ## Single slots -/

/-- **A change of one leaf.** -/
theorem modify_matches (h : p.Represents s) (link : Link) (f : Leaf V → Leaf V) :
    Matches Represents (p.modify link f) (s.modify link f) := by
  unfold modify Ledger.modify
  rw [h.get_eq]
  refine Matches.read fun leaf hget => ?_
  obtain ⟨id, rfl, hl⟩ := Ledger.get_eq_ok hget
  refine (h.toExtent.write_yields (h.index_lt hl)).mono ?_
  rintro p' ⟨hextent, hslot, hopened, hfree, hlive⟩
  -- a slot that holds a leaf is not on the free list
  have hnot : id ∉ s.vacated := h.not_mem_vacated (by rw [h.leaves, hl]; simp)
  have hvacated : s.vacated.filter (· ≠ id) = s.vacated := by
    refine List.filter_eq_self.2 fun id' hid' => decide_eq_true fun heq => ?_
    exact hnot (heq ▸ hid')
  refine h.of_store hextent (leaf?_update hslot) (fun id' _ => by rw [hopened]) rfl ?_ rfl
    (hopened.trans h.peak) (hlive.trans h.live) ?_ ?_
  · exact (Finset.insert_eq_of_mem ((h.listed id).2 (by simp [hl]))).symm
  · rw [hvacated, hfree]
    exact h.run.update hslot hnot
  · rw [hvacated, hlive, hopened, h.count]

/-- With numbers given back, the free list starts at the one given back last. -/
theorem put_released (h : p.Represents s) {id : LeafId} {rest : List LeafId} (hvacated : s.vacated = id :: rest)
    (key : Bytes) (value : V) :
    (p.put key value).Yields fun a => (a.1 = id ∧ a.2.opened = p.opened) ∧ a.2.Represents { s with
      leaf? := Function.update s.leaf? id (some ⟨key, value, none, none⟩)
      live := insert id s.live
      peak := max s.peak (insert id s.live).card } := by
  have hrun := h.run
  have hnodup := h.nodup_vacated
  have hcount := h.count
  have hpeak := h.peak
  have hlive := h.live
  rw [hvacated] at hrun hnodup hcount
  obtain ⟨hfree, next, hs, hrest⟩ := hrun
  rw [List.nodup_cons] at hnodup
  rw [List.length_cons] at hcount
  have hnext := Ledger.next_of_cons hvacated
  have hcard := h.card_insert (hnext ▸ h.leaf?_next)
  have hlt : id.index < p.opened := ((h.vacant id).1 (by rw [hvacated]; exact List.mem_cons_self)).1
  have hfilter : s.vacated.filter (· ≠ id) = rest := by
    rw [hvacated, List.filter_cons_of_neg (by simp), List.filter_eq_self]
    exact fun id' hid' => decide_eq_true fun heq => hnodup.1 (heq ▸ hid')
  unfold put
  rw [hfree]
  refine Yields.bind_pure ?_
  dsimp only
  rw [hs]
  refine Yields.bind (h.toExtent.write_yields hlt) ?_
  rintro p' ⟨hextent, hslot, hopened, hfree', hlive'⟩
  refine Yields.pure ⟨⟨rfl, hopened⟩, ?_⟩
  rw [hfree', hfree, if_pos rfl]
  refine h.of_store (hextent.of_root rfl rfl) (leaf?_update hslot) (fun id' _ => ?_) rfl rfl rfl ?_ ?_ ?_ ?_
  · change id'.index < p'.opened ↔ _
    rw [hopened]
  · change p'.opened = max s.peak _
    rw [hcard]
    omega
  · change p'.live + 1 = _
    dsimp only
    omega
  · rw [hfilter]
    exact hrest.update hslot hnodup.1
  · change p'.live + 1 + _ = p'.opened
    rw [hfilter]
    omega

/-- With none given back all numbers given out are live, and a first slot more is opened. -/
theorem put_opened (h : p.Represents s) (hvacated : s.vacated = []) (hroom : s.peak < slotLimit)
    (key : Bytes) (value : V) :
    (p.put key value).Yields fun a => (a.1 = ⟨s.peak⟩ ∧ a.2.opened = p.opened + 1) ∧ a.2.Represents { s with
      leaf? := Function.update s.leaf? ⟨s.peak⟩ (some ⟨key, value, none, none⟩)
      live := insert ⟨s.peak⟩ s.live
      peak := max s.peak (insert ⟨s.peak⟩ s.live).card } := by
  have hrun := h.run
  have hcount := h.count
  have hpeak := h.peak
  have hlive := h.live
  rw [hvacated] at hrun hcount
  rw [List.length_nil] at hcount
  have hfree : p.free = none := hrun
  have hnext := Ledger.next_of_nil hvacated
  have hcard := h.card_insert (hnext ▸ h.leaf?_next)
  unfold put
  rw [hfree]
  refine Yields.bind (h.toExtent.openSlot_yields (hpeak ▸ hroom)) ?_
  rintro ⟨id, p₁⟩ ⟨rfl, hextent₁, hsame, hs, hleaf₁, hopened₁, hfree₁, hlive₁⟩
  dsimp only
  rw [hs]
  refine Yields.bind (hextent₁.write_yields (by simp [hopened₁])) ?_
  rintro p' ⟨hextent, hslot, hopened, hfree', hlive'⟩
  refine Yields.pure ⟨⟨congrArg LeafId.mk hpeak, hopened.trans hopened₁⟩, ?_⟩
  rw [hfree', hfree₁, hfree, if_neg (by simp), ← hpeak]
  rw [← hpeak] at hcard
  have hleaf := leaf?_update hslot
  rw [hleaf₁] at hleaf
  refine h.of_store (hextent.of_root rfl rfl) hleaf (fun id' hne => ?_) rfl rfl rfl ?_ ?_ ?_ ?_
  · change id'.index < p'.opened ↔ _
    rw [hopened, hopened₁]
    have : id'.index ≠ p.opened := fun heq => hne (by cases id'; simpa using heq)
    omega
  · change p'.opened = max _ _
    rw [hcard]
    omega
  · change p'.live + 1 = _
    dsimp only
    omega
  · rw [hvacated]
    rfl
  · change p'.live + 1 + _ = p'.opened
    rw [hvacated, List.filter_nil, List.length_nil]
    omega

/-- **A number given out.** -/
theorem put_matches (h : p.Represents s) (key : Bytes) (value : V) :
    Matches (fun a b => a.1 = b.1 ∧ a.2.Represents b.2) (p.put key value) (s.put key value) := by
  unfold Ledger.put
  cases hvacated : s.vacated with
  | cons id rest =>
      rw [if_neg (by simp)]
      rw [Ledger.next_of_cons hvacated]
      exact (h.put_released hvacated key value).mono fun _ hput => ⟨hput.1.1, hput.2⟩
  | nil =>
      rw [Ledger.next_of_nil hvacated]
      rcases Nat.lt_or_ge s.peak slotLimit with hroom | hfull
      · rw [if_neg (by simpa using hroom)]
        exact (h.put_opened hvacated hroom key value).mono fun _ hput => ⟨hput.1.1, hput.2⟩
      · rw [if_pos ⟨rfl, hfull⟩]
        have hrun := h.run
        rw [hvacated] at hrun
        have hfree : p.free = none := hrun
        unfold put
        rw [hfree]
        exact Faults.bind (openSlot_faults (h.peak ▸ hfull))

/-- A number that leads to a leaf can be taken back, and the free list starts with it. -/
theorem vacate_live (h : p.Represents s) {id : LeafId} {leaf : Leaf V} (hl : s.leaf? id = some leaf) :
    (p.vacate (some id)).Yields fun a => a.1 = leaf ∧ a.2.Represents { s with
      leaf? := Function.update s.leaf? id none
      live := s.live.erase id
      released := id :: s.released.filter (· ≠ id) } := by
  have hpl : p.leaf? id = some leaf := by rw [h.leaves, hl]
  have hvacated := Ledger.vacated_vacate s { s with
    leaf? := Function.update s.leaf? id none
    live := s.live.erase id
    released := id :: s.released.filter (· ≠ id) } (by simp [hl]) rfl rfl
  have hmem : id ∈ s.live := (h.listed id).2 (by simp [hl])
  have hcard := Finset.card_erase_of_mem hmem
  have hpos := Finset.card_pos.2 ⟨id, hmem⟩
  have hcount := h.count
  have hlive := h.live
  unfold vacate
  dsimp only
  rw [leaf?_eq_some_iff.1 hpl]
  refine Yields.bind (h.toExtent.write_yields (h.index_lt hl)) ?_
  rintro p' ⟨hextent, hslot, hopened, hfree, hlive'⟩
  have hleaf := leaf?_update hslot
  refine Yields.pure ⟨rfl, hextent.of_root rfl rfl, ?_, ?_, ?_, hopened.trans h.peak, ?_, ?_, ?_, ?_⟩
  · change p'.leaf? = _
    rw [hleaf, h.leaves]
    rfl
  · intro id'
    rw [Finset.mem_erase, h.listed]
    by_cases heq : id' = id
    · simp [heq]
    · simp [heq]
  · change p'.live - 1 = (s.live.erase id).card
    omega
  · rw [hvacated]
    refine ⟨rfl, p.free, ?_, h.run.update hslot (h.not_mem_vacated (by simp [hpl]))⟩
    change p'.slot? id = _
    rw [hslot, Function.update_self]
  · exact List.nodup_cons.2 ⟨by simp, h.nodup.filter _⟩
  · intro id'
    change _ ↔ id'.index < p'.opened ∧ p'.leaf? id' = none
    rw [hvacated, List.mem_cons, h.vacant, hopened, hleaf]
    by_cases heq : id' = id
    · subst heq
      simp [Slot.leaf?, h.index_lt hl]
    · simp [heq]
  · change p'.live - 1 + _ = p'.opened
    rw [hvacated, List.length_cons]
    omega

/-- **A number taken back.** -/
theorem vacate_matches (h : p.Represents s) (link : Link) :
    Matches (fun a b => a.1 = b.1 ∧ a.2.Represents b.2) (p.vacate link) (s.vacate link) := by
  unfold Ledger.vacate
  cases link with
  | none => exact Matches.throw
  | some id =>
      have hreach := h.slots id
      rw [h.peak] at hreach
      have hleaf := congrFun h.leaves id
      unfold leaf? at hleaf
      dsimp only
      cases hl : s.leaf? id with
      | some leaf => exact h.vacate_live hl
      | none =>
          rw [hl] at hleaf
          unfold vacate
          dsimp only
          -- a number without a leaf has a vacant slot, or none past the blocks
          cases hs : p.slot? id with
          | none =>
              rw [hs] at hreach
              rw [if_neg fun hlt => by simpa using hreach.2 hlt]
              exact Matches.throw
          | some slot =>
              rw [hs] at hreach hleaf
              rw [if_pos (hreach.1 rfl)]
              cases slot with
              | vacant next => exact Matches.throw
              | live leaf => cases hleaf

/-! ## Chains -/

theorem modifyIf_matches (h : p.Represents s) (link : Link) (f : Leaf V → Leaf V) :
    Matches Represents (if link.isSome then p.modify link f else pure p) (s.modifyIf link f) := by
  unfold Ledger.modifyIf
  split
  · exact h.modify_matches link f
  · exact Matches.pure h

theorem connect_matches (h : p.Represents s) (a b : Link) : Matches Represents (p.connect a b) (s.connect a b) := by
  rw [connect_eq]
  unfold Ledger.connect
  exact (h.modifyIf_matches a _).bind fun p₁ s₁ h₁ => h₁.modifyIf_matches b _

theorem spliceAfter_matches (h : p.Represents s) (pred id : Link) :
    Matches Represents (p.spliceAfter pred id) (s.spliceAfter pred id) := by
  unfold spliceAfter Ledger.spliceAfter
  rw [h.nextOf_eq]
  refine Matches.read fun succ _ => ?_
  exact (h.connect_matches pred id).bind fun p₁ s₁ h₁ => h₁.connect_matches id succ

theorem spliceBefore_matches (h : p.Represents s) (succ id : Link) :
    Matches Represents (p.spliceBefore succ id) (s.spliceBefore succ id) := by
  unfold spliceBefore Ledger.spliceBefore
  rw [h.prevOf_eq]
  refine Matches.read fun pred _ => ?_
  exact (h.connect_matches pred id).bind fun p₁ s₁ h₁ => h₁.connect_matches id succ

theorem unlink_matches (h : p.Represents s) (id : Link) : Matches Represents (p.unlink id) (s.unlink id) := by
  unfold unlink Ledger.unlink
  rw [h.get_eq]
  refine Matches.read fun leaf _ => ?_
  exact (h.connect_matches leaf.prev leaf.next).bind fun p₁ s₁ h₁ => h₁.modify_matches id _

/-- Every number taken back leaves one less that leads anywhere, so there are always steps enough for a run. -/
theorem vacateThrough_matches (h : p.Represents s) (last : Link) {steps left : Nat} (hsteps : left < steps)
    (hleft : s.live.card ≤ left) (current : Link) :
    Matches (fun a b => a.1 = b.1 ∧ a.2.Represents b.2) (vacateThrough last steps p current)
      (Ledger.vacateThrough last left s current) := by
  induction left generalizing steps p s current with
  | zero =>
      obtain ⟨steps, rfl⟩ : ∃ n, steps = n + 1 := ⟨steps - 1, by omega⟩
      -- nothing is live, so there is no link left to follow
      have hnone : current.bind s.leaf? = none := by
        by_contra hsome
        obtain ⟨leaf, hleaf⟩ := Option.ne_none_iff_exists'.1 hsome
        obtain ⟨id, -, hl⟩ := Option.bind_eq_some_iff.1 hleaf
        have hpos := Finset.card_pos.2 ⟨id, (h.listed id).2 (by simp [hl])⟩
        omega
      unfold vacateThrough
      rw [h.nextOf_eq, Ledger.nextOf_none hnone]
      exact Faults.bind fun _ => rfl
  | succ left ih =>
      obtain ⟨steps, rfl⟩ : ∃ n, steps = n + 1 := ⟨steps - 1, by omega⟩
      unfold vacateThrough Ledger.vacateThrough
      rw [h.nextOf_eq]
      refine Matches.read fun next hnext => ?_
      obtain ⟨id, leaf, rfl, hl⟩ := Ledger.nextOf_eq_ok hnext
      refine (h.vacate_matches (some id)).specified.bind ?_
      rintro ⟨leaf₁, p₁⟩ ⟨leaf₂, s₁⟩ ⟨hspec, -, h₁⟩
      have hcard : s₁.live.card ≤ left := by
        rw [(Ledger.vacate_eq_ok hspec).2, Finset.card_erase_of_mem ((h.listed id).2 (by simp [hl]))]
        omega
      dsimp only
      split
      · exact Matches.pure ⟨rfl, h₁⟩
      · split
        · exact Matches.throw
        · refine (ih h₁ (Nat.lt_of_succ_lt_succ hsteps) hcard next).bind ?_
          rintro ⟨count, p'⟩ ⟨count', s'⟩ ⟨hcount, h'⟩
          obtain rfl : count = count' := hcount
          exact Matches.pure ⟨rfl, h'⟩

theorem vacateRun_matches (h : p.Represents s) (first last : Link) :
    Matches (fun a b => a.1 = b.1 ∧ a.2.Represents b.2) (p.vacateRun first last) (s.vacateRun first last) := by
  unfold vacateRun Ledger.vacateRun
  rw [h.prevOf_eq]
  refine Matches.read fun before _ => ?_
  rw [h.nextOf_eq]
  refine Matches.read fun after _ => ?_
  have hsteps : s.live.card < p.live + 1 := by
    rw [h.live]
    omega
  refine (h.vacateThrough_matches last hsteps (Nat.le_refl _) first).bind ?_
  rintro ⟨count, p₁⟩ ⟨count', s₁⟩ ⟨hcount, h₁⟩
  obtain rfl : count = count' := hcount
  exact (h₁.connect_matches before after).bind fun p' s' h' => Matches.pure ⟨rfl, h'⟩

/-- **A call on a pool comes to what its ledger answers.** -/
theorem meets (h : p.Represents s) (call : Call V) : Meets Represents (p.perform call) (s.answer call) := by
  rw [meets_iff_matches]
  have hdone : ∀ {e : Edit (Pool V)} {spec : Except Fault (Ledger V)}, Matches Represents e spec →
      Matches (fun a b => a.1 = b.1 ∧ a.2.Represents b.2) (do return (Reply.done (V := V), ← e))
        (do return (Reply.done (V := V), ← spec)) :=
    fun hmatches => hmatches.bind fun p' s' h' => Matches.pure ⟨rfl, h'⟩
  have hreplied : ∀ {α : Type} {e : Edit (α × Pool V)} {spec : Except Fault (α × Ledger V)} (f : α → Reply V),
      Matches (fun a b => a.1 = b.1 ∧ a.2.Represents b.2) e spec →
      Matches (fun a b => a.1 = b.1 ∧ a.2.Represents b.2) (do let (a, p) ← e; return (f a, p))
        (do let (a, s) ← spec; return (f a, s)) := by
    intro α e spec f hmatches
    exact hmatches.bind fun a b hab => Matches.pure ⟨congrArg f hab.1, hab.2⟩
  cases call with
  | put key value => exact hreplied .put (h.put_matches key value)
  | modify link f => exact hdone (h.modify_matches link f)
  | vacate link => exact hreplied .vacated (h.vacate_matches link)
  | connect a b => exact hdone (h.connect_matches a b)
  | spliceAfter pred id => exact hdone (h.spliceAfter_matches pred id)
  | spliceBefore succ id => exact hdone (h.spliceBefore_matches succ id)
  | unlink id => exact hdone (h.unlink_matches id)
  | vacateRun first last => exact hreplied .vacatedRun (h.vacateRun_matches first last)

end Represents

/-- **Where a run of calls ends**, if it does not come to an answer: in a fault of the caller's, or for want of
numbers. -/
theorem runs_blame {calls : List (Call V)} {now : Stamp} {fault : Fault}
    (hrun : (performAll perform (empty : Pool V) calls).run now = .error fault) : Ledger.Blames fault := by
  have hends :=
    ends_of_meets Ledger.answer_faults (fun _ _ call h => Represents.meets h call) represents_empty calls now
  rw [hrun] at hends
  exact hends

/-! ## A map from numbers to leaves -/

/-- A pool leads from numbers to leaves as its ledger does. What is written to one number is seen under no other,
opening a slot moves no leaf, whether or not the tower gets another level for it, and the tower has no more levels
than it needs. -/
structure Serves (p : Pool V) (s : Ledger V) : Prop where
  get : ∀ link, p.get link = s.get link
  modify : ∀ id f, (p.modify (some id) f).Ensures fun p' => ∀ link, link ≠ some id → p'.get link = p.get link
  vacate : ∀ id, (p.vacate (some id)).Ensures fun (_, p') => ∀ link, link ≠ some id → p'.get link = p.get link
  put : ∀ key value, (p.put key value).Ensures fun (id, p') =>
    p'.get (some id) = .ok ⟨key, value, none, none⟩ ∧ ∀ link, link ≠ some id → p'.get link = p.get link
  opens : p.opened < slotLimit → p.openSlot.Yields fun (id, p') =>
    id = ⟨p.opened⟩ ∧ p'.opened = p.opened + 1 ∧ ∀ link, p'.get link = p.get link
  height : ∀ h, p.opened ≤ 64 * 32 ^ h ↔ p.height ≤ h

theorem Represents.serves (h : p.Represents s) : p.Serves s where
  get := h.get_eq
  modify := by
    intro id f now p' next hrun link hne
    obtain ⟨s', hspec, h'⟩ := (h.modify_matches (some id) f).ensures now p' next hrun
    obtain ⟨leaf, hleaf⟩ := Ledger.modify_eq_ok hspec
    rw [h.get_eq, h'.get_eq, Ledger.get_of_ne hleaf hne]
  vacate := by
    intro id now a next hrun link hne
    obtain ⟨⟨leaf, s'⟩, hspec, -, h'⟩ := (h.vacate_matches (some id)).ensures now a next hrun
    rw [h.get_eq, h'.get_eq, Ledger.get_of_ne (Ledger.vacate_eq_ok hspec).1 hne]
  put := by
    rintro key value now ⟨id, p'⟩ next hrun
    obtain ⟨⟨id', s'⟩, hspec, hid, h'⟩ := (h.put_matches key value).ensures now _ next hrun
    obtain rfl : id = id' := hid
    obtain ⟨-, hleaf, -⟩ := Ledger.put_eq_ok hspec
    refine ⟨?_, fun link hne => ?_⟩
    · rw [h'.get_eq, Ledger.get_some (by rw [hleaf, Function.update_self])]
    · rw [h.get_eq, h'.get_eq, Ledger.get_of_ne hleaf hne]
  opens := by
    intro hroom
    refine (h.toExtent.openSlot_yields hroom).mono ?_
    rintro ⟨id, p'⟩ ⟨hid, -, -, -, hleaf, hopened, -, -⟩
    refine ⟨hid, hopened, fun link => ?_⟩
    unfold Pool.get
    rw [hleaf]
  height := h.height

/-- **A pool is a map from numbers to leaves at every size.** Every run of calls follows the ledger, whose faults are
the caller's and the want of numbers, and no run looks for a table past the end of a page. -/
theorem serves_runs (calls : List (Call V)) (now : Stamp) :
    (empty : Pool V).Serves {} ∧
      Follows Serves ((performAll perform empty calls).run now) (answerAll Ledger.answer {} calls) ∧
      ∀ index size, (performAll perform (empty : Pool V) calls).run now ≠ .error (.outOfRange index size) := by
  refine ⟨represents_empty.serves, ?_, fun index size hrun => runs_blame hrun⟩
  exact follows_of_meets (fun _ _ h => h.serves) (fun _ _ call h => h.meets call) represents_empty calls now

/-! ## The free list -/

/-- The free list of a pool runs through just the numbers that are vacant, the one given back last first; a leaf is
put in the first of them, and a slot is opened only when there is none. -/
structure ListsVacant (p : Pool V) (s : Ledger V) : Prop where
  run : FreeRun p.slot? p.free s.vacated
  nodup : s.vacated.Nodup
  vacant : ∀ id, id ∈ s.vacated ↔ id.index < p.opened ∧ ∃ next, p.slot? id = some (.vacant next)
  live : ∀ id, id ∈ s.live ↔ (p.leaf? id).isSome
  card : p.live = s.live.card
  count : p.live + s.vacated.length = p.opened
  peak : p.opened = s.peak
  put : p.live < slotLimit → ∀ key value, (p.put key value).Yields fun (id, p') =>
    p.leaf? id = none ∧ (∀ head, p.free = some head → id = head ∧ p'.opened = p.opened) ∧
      (p.free = none → id = ⟨p.opened⟩ ∧ p'.opened = p.opened + 1)

theorem Represents.listsVacant (h : p.Represents s) : p.ListsVacant s where
  run := h.run
  nodup := h.nodup_vacated
  vacant := by
    intro id
    rw [h.vacant]
    refine and_congr_right fun hlt => ?_
    obtain ⟨slot, hs⟩ := Option.isSome_iff_exists.1 (h.slot?_isSome hlt)
    unfold leaf?
    rw [hs]
    cases slot with
    | vacant next => simp [Slot.leaf?]
    | live leaf => simp [Slot.leaf?]
  live := by
    rw [h.leaves]
    exact h.listed
  card := h.live
  count := h.count
  peak := h.peak
  put := by
    intro hroom key value
    have hrun := h.run
    have hcount := h.count
    have hpeak := h.peak
    have hnone := h.leaf?_next
    rw [← h.leaves] at hnone
    cases hvacated : s.vacated with
    | cons id rest =>
        rw [hvacated] at hrun
        rw [Ledger.next_of_cons hvacated] at hnone
        have hfree : p.free = some id := hrun.1
        refine (h.put_released hvacated key value).mono ?_
        rintro ⟨id', p'⟩ ⟨⟨hid, hopened⟩, -⟩
        obtain rfl : id' = id := hid
        refine ⟨hnone, fun head hhead => ?_, fun hfree' => absurd (hfree.symm.trans hfree') (by simp)⟩
        exact ⟨Option.some.inj (hfree.symm.trans hhead), hopened⟩
    | nil =>
        rw [hvacated] at hrun hcount
        rw [Ledger.next_of_nil hvacated] at hnone
        rw [List.length_nil] at hcount
        have hfree : p.free = none := hrun
        refine (h.put_opened hvacated (by omega) key value).mono ?_
        rintro ⟨id', p'⟩ ⟨⟨hid, hopened⟩, -⟩
        obtain rfl : id' = ⟨s.peak⟩ := hid
        refine ⟨hnone, fun head hhead => absurd (hfree.symm.trans hhead) (by simp), fun _ => ?_⟩
        exact ⟨congrArg LeafId.mk hpeak.symm, hopened⟩

/-- **The free list is right after every call**, and it never hands out a live slot. -/
theorem lists_vacant_runs (calls : List (Call V)) (now : Stamp) :
    (empty : Pool V).ListsVacant {} ∧
      Follows ListsVacant ((performAll perform empty calls).run now) (answerAll Ledger.answer {} calls) ∧
      ∀ id, (performAll perform (empty : Pool V) calls).run now ≠ .error (.liveSlotOnFreeList id) := by
  refine ⟨represents_empty.listsVacant, ?_, fun id hrun => runs_blame hrun⟩
  exact follows_of_meets (fun _ _ h => h.listsVacant) (fun _ _ call h => h.meets call) represents_empty calls now

end OrderedStore.Pool
