import Mathlib.Logic.Relation
import Mathlib.Tactic
import OrderedStore.Proofs.Pool.Chained
import OrderedStore.Proofs.Pool.Ledger

/-!
# Many chains in one pool

The live leaves of a pool fall into chains, whatever its free list and its tables look like. Taken together the
chains are a list of lists, in no particular order, and they say all there is to know of the leaves: each number that
leads anywhere is on one of them, and its place there tells both its links.

So a chain operation is a statement about that list of lists. A splice takes a lone leaf's list away and puts the leaf
into another; unlinking does the reverse, and after a splice it gives back the very pool there was; freeing a run cuts
it out of one list. None of them touches a leaf that is not named or next to a cut. Because the numbers of a list are
distinct across all of them, a write to one chain is a write off all the others, and one lemma carries them along.
-/

namespace OrderedStore

variable {V : Type}

namespace Entry

/-- The numbers of the leaves on some chains. -/
def numbers (cs : List (List (Entry V))) : List LeafId := cs.flatten.map Entry.id

theorem numbers_cons (c : List (Entry V)) (cs : List (List (Entry V))) :
    numbers (c :: cs) = c.map Entry.id ++ numbers cs := by
  unfold numbers
  rw [List.flatten_cons, List.map_append]

theorem numbers_singleton (c : List (Entry V)) : numbers [c] = c.map Entry.id := by
  rw [numbers_cons]
  exact List.append_nil _

theorem numbers_append (cs ds : List (List (Entry V))) : numbers (cs ++ ds) = numbers cs ++ numbers ds := by
  unfold numbers
  rw [List.flatten_append, List.map_append]

theorem mem_numbers {cs : List (List (Entry V))} {id : LeafId} :
    id ∈ numbers cs ↔ ∃ c ∈ cs, id ∈ c.map Entry.id := by
  unfold numbers
  simp only [List.map_flatten, List.mem_flatten, List.mem_map, exists_exists_and_eq_and]

/-- A leaf that is on some chain is at some place of it. -/
theorem exists_place {cs : List (List (Entry V))} {id : LeafId} (h : id ∈ numbers cs) :
    ∃ xs e ys rest, e.id = id ∧ cs.Perm ((xs ++ e :: ys) :: rest) := by
  obtain ⟨c, hc, hmem⟩ := mem_numbers.1 h
  obtain ⟨e, he, rfl⟩ := List.mem_map.1 hmem
  obtain ⟨xs, ys, rfl⟩ := List.append_of_mem he
  obtain ⟨front, back, rfl⟩ := List.append_of_mem hc
  exact ⟨xs, e, ys, front ++ back, rfl, List.perm_middle⟩

end Entry

namespace Pool

open Edit
open Entry (first last first_cons last_concat numbers numbers_cons numbers_singleton numbers_append
  mem_numbers)

/-- The live leaves of a pool form these chains, each from an end to an end: every live leaf is on one of them, and
none is on two or on one twice. -/
structure Threads (p : Pool V) (cs : List (List (Entry V))) : Prop where
  strand : ∀ c ∈ cs, p.Strand none c none
  nodup : (numbers cs).Nodup
  all : ∀ id, (p.leaf? id).isSome → id ∈ numbers cs

section Threads

variable {p q : Pool V} {cs ds olds news rest : List (List (Entry V))} {c xs ms ys : List (Entry V)} {e : Entry V}

/-- Which chain is named first does not matter. -/
theorem Threads.perm (h : p.Threads cs) (hp : cs.Perm ds) : p.Threads ds where
  strand c hc := h.strand c (hp.mem_iff.2 hc)
  nodup := ((hp.flatten.map Entry.id).nodup_iff).1 h.nodup
  all id hid := ((hp.flatten.map Entry.id).mem_iff).1 (h.all id hid)

theorem Threads.linked (h : p.Threads (c :: rest)) : p.Linked c := by
  have hnd := h.nodup
  rw [numbers_cons, List.nodup_append'] at hnd
  exact ⟨h.strand c List.mem_cons_self, hnd.1⟩

/-- **The chains say all there is to know of the leaves.** -/
theorem Threads.leaf?_eq (h : p.Threads cs) (hq : q.Threads cs) : q.leaf? = p.leaf? := by
  funext id
  by_cases hid : id ∈ numbers cs
  · obtain ⟨xs, e, ys, rest, rfl, hperm⟩ := Entry.exists_place hid
    rw [(h.perm hperm).linked.leaf?_mid, (hq.perm hperm).linked.leaf?_mid]
  · have hnone : ∀ r : Pool V, r.Threads cs → r.leaf? id = none := fun r hr =>
      Option.not_isSome_iff_eq_none.1 fun hsome => hid (hr.all id hsome)
    rw [hnone p h, hnone q hq]

/-- **What is written to some chains leaves the others as they were**: if these become other chains of the same
leaves, or of some of them while the rest is freed, the pool still falls into chains. -/
theorem Threads.replace (h : p.Threads (olds ++ rest)) (hstrand : ∀ c ∈ news, q.Strand none c none)
    (hnd : (numbers news).Nodup) (hsub : numbers news ⊆ numbers olds) (hoff : p.SameOff q (numbers olds))
    (hgone : ∀ id ∈ numbers olds, (q.leaf? id).isSome → id ∈ numbers news) : q.Threads (news ++ rest) := by
  have hall := h.nodup
  rw [numbers_append, List.nodup_append'] at hall
  obtain ⟨-, hndr, hdisj⟩ := hall
  refine ⟨?_, ?_, ?_⟩
  · intro c hc
    rcases List.mem_append.1 hc with hc | hc
    · exact hstrand c hc
    · refine hoff.strand (h.strand c (List.mem_append_right _ hc)) fun id hid hold => ?_
      exact hdisj hold (mem_numbers.2 ⟨c, hc, hid⟩)
  · rw [numbers_append, List.nodup_append']
    exact ⟨hnd, hndr, fun id hnew hrest => hdisj (hsub hnew) hrest⟩
  · intro id hid
    rw [numbers_append, List.mem_append]
    by_cases hold : id ∈ numbers olds
    · exact Or.inl (hgone id hold hid)
    · rw [hoff id hold] at hid
      have hmem := h.all id hid
      rw [numbers_append, List.mem_append] at hmem
      exact Or.inr (hmem.resolve_left hold)

/-! ## Finding a place on the chains -/

/-- A live leaf whose links both lead nowhere. -/
def Unlinked (p : Pool V) (id : LeafId) : Prop :=
  ∃ leaf, p.leaf? id = some leaf ∧ leaf.prev = none ∧ leaf.next = none

/-- Following next links from one leaf, or staying where one is, leads to the other. -/
def AtOrAfter (p : Pool V) : LeafId → LeafId → Prop :=
  Relation.ReflTransGen fun a b => ∃ leaf, p.leaf? a = some leaf ∧ leaf.next = some b

/-- An unlinked leaf is a chain by itself. -/
theorem Threads.exists_alone (h : p.Threads cs) {id : LeafId} (hid : p.Unlinked id) :
    ∃ e rest, e.id = id ∧ cs.Perm ([e] :: rest) := by
  obtain ⟨leaf, hl, hprev, hnext⟩ := hid
  obtain ⟨xs, e, ys, rest, rfl, hperm⟩ := Entry.exists_place (h.all id (by simp [hl]))
  have hmid := (h.perm hperm).linked.leaf?_mid
  rw [hl, Option.some.injEq] at hmid
  subst hmid
  obtain rfl := Entry.last_eq_none_iff.1 hprev
  obtain rfl := Entry.first_eq_none_iff.1 hnext
  exact ⟨e, rest, rfl, hperm⟩

/-- A lone leaf and another leaf: the other one is at its place of another chain. -/
theorem Threads.exists_beside (h : p.Threads cs) {a x : LeafId} (hne : a ≠ x) (ha : (p.leaf? a).isSome)
    (hx : p.Unlinked x) :
    ∃ xs f ys e rest, f.id = a ∧ e.id = x ∧ cs.Perm ((xs ++ f :: ys) :: [e] :: rest) := by
  obtain ⟨e, rest, rfl, hperm⟩ := h.exists_alone hx
  have hmem := (h.perm hperm).all a ha
  rw [numbers_cons, List.mem_append] at hmem
  have hrest := hmem.resolve_left fun hin => hne (List.mem_singleton.1 hin)
  obtain ⟨xs, f, ys, rest', rfl, hperm'⟩ := Entry.exists_place hrest
  refine ⟨xs, f, ys, e, rest', rfl, rfl, ?_⟩
  exact (hperm.trans (hperm'.cons _)).trans (List.Perm.swap _ _ _)

/-- A chain by itself is beside the others. -/
theorem Threads.beside (h : p.Threads (c :: [e] :: rest)) : p.Alone e ∧ e.id ∉ c.map Entry.id := by
  have hnd := h.nodup
  rw [numbers_cons, numbers_cons, List.nodup_append'] at hnd
  refine ⟨h.strand [e] (by simp), fun hid => hnd.2.2 hid ?_⟩
  simp

/-- From one leaf to one at or after it there is a run of their chain. -/
theorem Threads.exists_run (h : p.Threads cs) {a b : LeafId} (ha : (p.leaf? a).isSome) (hab : p.AtOrAfter a b) :
    ∃ xs ms ys rest, ms ≠ [] ∧ first ms = some a ∧ last ms = some b ∧ cs.Perm ((xs ++ ms ++ ys) :: rest) := by
  induction hab with
  | refl =>
      obtain ⟨xs, e, ys, rest, rfl, hperm⟩ := Entry.exists_place (h.all a ha)
      exact ⟨xs, [e], ys, rest, by simp, rfl, rfl, by simpa using hperm⟩
  | @tail b b' _ hnext ih =>
      obtain ⟨leaf, hl, hnext⟩ := hnext
      obtain ⟨xs, ms, ys, rest, hms, hfirst, hlast, hperm⟩ := ih
      -- the run so far ends in `b`, so what `b` leads to is the first entry behind it
      obtain ⟨ms, m, rfl⟩ := (List.eq_nil_or_concat' ms).resolve_left hms
      rw [last_concat, Option.some.injEq] at hlast
      subst hlast
      have hcut : xs ++ (ms ++ [m]) ++ ys = (xs ++ ms) ++ m :: ys := by simp
      have hmid := (h.perm (hcut ▸ hperm)).linked.leaf?_mid
      rw [hl, Option.some.injEq] at hmid
      subst hmid
      cases ys with
      | nil => cases hnext
      | cons y ys =>
          rw [first_cons, Option.some.injEq] at hnext
          refine ⟨xs, ms ++ [m] ++ [y], ys, rest, by simp, ?_, ?_, by simpa using hperm⟩
          · rw [Entry.first_append_left (by simp), hfirst]
          · rw [last_concat, hnext]

end Threads

/-! ## What linking leaves alone -/

/-- The same slots hold leaves, and all else is as it was; only what these leaves are may differ. -/
structure Rewired (p q : Pool V) : Prop where
  vacant : ∀ id, p.leaf? id = none → q.slot? id = p.slot? id
  leaves : ∀ id, (p.leaf? id).isSome → (q.leaf? id).isSome
  height : q.height = p.height
  opened : q.opened = p.opened
  free : q.free = p.free
  live : q.live = p.live

/-- Pools with the same slots, the same free list and the same counts. -/
structure SameContents (p q : Pool V) : Prop where
  slots : q.slot? = p.slot?
  height : q.height = p.height
  opened : q.opened = p.opened
  free : q.free = p.free
  live : q.live = p.live

section Rewired

variable {p q r : Pool V}

theorem Rewired.refl (p : Pool V) : p.Rewired p := ⟨fun _ _ => rfl, fun _ h => h, rfl, rfl, rfl, rfl⟩

theorem Rewired.leaf?_eq_none (h : p.Rewired q) {id : LeafId} (hid : p.leaf? id = none) : q.leaf? id = none := by
  unfold leaf?
  rw [h.vacant id hid]
  exact hid

theorem Rewired.trans (h : p.Rewired q) (h' : q.Rewired r) : p.Rewired r where
  vacant id hid := (h'.vacant id (h.leaf?_eq_none hid)).trans (h.vacant id hid)
  leaves id hid := h'.leaves id (h.leaves id hid)
  height := h'.height.trans h.height
  opened := h'.opened.trans h.opened
  free := h'.free.trans h.free
  live := h'.live.trans h.live

theorem Rewired.isVacant (h : p.Rewired q) {id : LeafId} (hid : p.IsVacant id) : q.IsVacant id := by
  obtain ⟨next, hs⟩ := hid
  exact ⟨next, (h.vacant id (leaf?_eq_none_of_vacant hs)).trans hs⟩

/-- With the leaves back as they were, everything is. -/
theorem Rewired.sameContents (h : p.Rewired q) (hleaf : q.leaf? = p.leaf?) : p.SameContents q where
  slots := by
    funext id
    cases hl : p.leaf? id with
    | none => exact h.vacant id hl
    | some leaf => rw [leaf?_eq_some_iff.1 hl, leaf?_eq_some_iff.1 ((congrFun hleaf id).trans hl)]
  height := h.height
  opened := h.opened
  free := h.free
  live := h.live

theorem modify_height (p : Pool V) (link : Link) (f : Leaf V → Leaf V) :
    (p.modify link f).Ensures fun q => q.height = p.height := by
  unfold modify
  refine Ensures.after fun leaf => ?_
  cases link with
  | none => exact Ensures.pure rfl
  | some id => exact write_height p id _

theorem rewired_kept_by_modify (p : Pool V) : KeptByModify p.Rewired := by
  intro q link f h
  refine modify_ensures fun id leaf hl => ?_
  have hsets := ((modify_sets hl).with (modify_height q (some id) f)).ensures
  refine hsets.mono ?_
  intro r hr
  obtain ⟨⟨hslot, hopened, hfree, hlive⟩, hheight⟩ := hr
  refine h.trans ⟨?_, ?_, hheight, hopened, hfree, hlive⟩
  · intro id' hnone
    rw [hslot, Function.update_of_ne]
    rintro rfl
    rw [hnone] at hl
    cases hl
  · intro id' hsome
    rw [leaf?_update hslot]
    by_cases heq : id' = id
    · subst heq
      rw [Function.update_self]
      rfl
    · rw [Function.update_of_ne heq]
      exact hsome

end Rewired

/-! ## Operations on chains as operations on lists -/

/-- What is left of the chains and of the pool when `e` is taken from between `xs` and `ys`. -/
structure Detached (p p' : Pool V) (xs : List (Entry V)) (e : Entry V) (ys : List (Entry V))
    (rest : List (List (Entry V))) : Prop where
  threads : p'.Threads ((xs ++ ys) :: [e] :: rest)
  unlinked : p'.Unlinked e.id
  rewired : p.Rewired p'
  elsewhere : p.SameOff p' (e.id :: sides xs ys)

/-- What becomes of the chains and of the pool when the lone leaf `e` is put between `xs` and `ys`. -/
structure Spliced (p p' : Pool V) (xs : List (Entry V)) (e : Entry V) (ys : List (Entry V))
    (rest : List (List (Entry V))) : Prop where
  threads : p'.Threads ((xs ++ e :: ys) :: rest)
  rewired : p.Rewired p'
  elsewhere : p.SameOff p' (e.id :: sides xs ys)
  undone : (p'.unlink (some e.id)).Yields p.SameContents

/-- What is left of the chains and of the pool when the run `ms` is freed from between `xs` and `ys`. -/
structure RunFreed (p : Pool V) (count : Nat) (p' : Pool V) (xs ms ys : List (Entry V))
    (rest : List (List (Entry V))) : Prop where
  count : count = ms.length
  threads : p'.Threads ((xs ++ ys) :: rest)
  vacant : ∀ m ∈ ms, p'.IsVacant m.id
  live : p'.live + ms.length = p.live
  elsewhere : p.SameOff p' (ms.map Entry.id ++ sides xs ys)

section Operations

variable {p q : Pool V} {cs olds news rest : List (List (Entry V))} {xs ms ys : List (Entry V)} {e : Entry V}

/-- Chains become other chains of the same leaves. -/
theorem Threads.rearrange (h : p.Threads (olds ++ rest)) (hstrand : ∀ c ∈ news, q.Strand none c none)
    (hperm : (numbers news).Perm (numbers olds)) (hoff : p.SameOff q (numbers olds)) : q.Threads (news ++ rest) := by
  have hnd := h.nodup
  rw [numbers_append, List.nodup_append'] at hnd
  exact h.replace hstrand (hperm.nodup_iff.2 hnd.1) hperm.subset hoff fun id hold _ => hperm.mem_iff.2 hold

/-- An entry on a chain and the entry beside it: the same leaves either way. -/
theorem numbers_beside (xs ys : List (Entry V)) (e : Entry V) :
    (numbers [xs ++ ys, [e]]).Perm (numbers [xs ++ e :: ys]) := by
  rw [numbers_cons, numbers_singleton, numbers_singleton, ← List.map_append]
  exact ((List.perm_append_singleton e (xs ++ ys)).trans List.perm_middle.symm).map Entry.id

theorem Threads.unlink_yields (h : p.Threads ((xs ++ e :: ys) :: rest)) :
    (p.unlink (some e.id)).Yields fun p' => p.Detached p' xs e ys rest := by
  have hrewired := (rewired_kept_by_modify p).unlink (Rewired.refl p) (some e.id)
  refine (h.linked.unlink_yields.with hrewired).mono ?_
  intro p' h'
  obtain ⟨⟨hlinked, halone, -, hoff⟩, hrewired⟩ := h'
  refine ⟨?_, ⟨_, alone_iff.1 halone, rfl, rfl⟩, hrewired, hoff⟩
  have hold : p.Threads ([xs ++ e :: ys] ++ rest) := h
  change p'.Threads ([xs ++ ys, [e]] ++ rest)
  refine hold.rearrange ?_ (numbers_beside xs ys e) ?_
  · intro c hc
    rcases List.mem_cons.1 hc with rfl | hc
    · exact hlinked.strand
    · rw [List.mem_singleton.1 hc]
      exact halone
  · rw [numbers_singleton]
    exact hoff.mono (sides_subset_mid xs ys e)

/-- Whatever splices `e` in as linking it between `xs` and `ys` does, it is undone by unlinking. -/
theorem Threads.spliced_yields (h : p.Threads ((xs ++ ys) :: [e] :: rest)) {splice : Edit (Pool V)}
    (hsplice : splice.Yields fun p' =>
      p'.Linked (xs ++ e :: ys) ∧ p'.live = p.live ∧ p.SameOff p' (e.id :: sides xs ys))
    (hrewired : splice.Ensures p.Rewired) : splice.Yields fun p' => p.Spliced p' xs e ys rest := by
  refine (hsplice.with hrewired).mono ?_
  intro p' h'
  obtain ⟨⟨hlinked, -, hoff⟩, hrewired⟩ := h'
  have hthreads : p'.Threads ((xs ++ e :: ys) :: rest) := by
    have hold : p.Threads ([xs ++ ys, [e]] ++ rest) := h
    change p'.Threads ([xs ++ e :: ys] ++ rest)
    refine hold.rearrange ?_ (numbers_beside xs ys e).symm ?_
    · intro c hc
      rw [List.mem_singleton.1 hc]
      exact hlinked.strand
    · refine hoff.mono fun id hid => ?_
      have hmem := sides_subset_mid xs ys e hid
      rw [← numbers_singleton] at hmem
      exact (numbers_beside xs ys e).mem_iff.2 hmem
  refine ⟨hthreads, hrewired, hoff, hthreads.unlink_yields.mono ?_⟩
  intro p'' h''
  -- the chains are what they were, so every leaf is
  exact (hrewired.trans h''.rewired).sameContents (h.leaf?_eq h''.threads)

/-- A pool that counts its leaves counts those of every run. -/
theorem Threads.run_le_live (h : p.Threads ((xs ++ ms ++ ys) :: rest)) (hp : p.CountsLive) : ms.length ≤ p.live := by
  have hlen := hp.length_le_live h.linked.nodup h.linked.strand.isSome
  rw [List.length_map, List.length_append, List.length_append] at hlen
  omega

theorem Threads.vacateRun_yields (h : p.Threads ((xs ++ ms ++ ys) :: rest)) (hms : ms ≠ [])
    (hcount : ms.length ≤ p.live) :
    (p.vacateRun (first ms) (last ms)).Yields fun (count, p') => p.RunFreed count p' xs ms ys rest := by
  refine (h.linked.vacateRun_yields hms hcount).mono ?_
  rintro ⟨count, p'⟩ ⟨hlen, hlinked, hlive, hvacant, hoff⟩
  refine ⟨hlen, ?_, fun m hm => hvacant m.id (List.mem_map_of_mem hm), hlive, hoff⟩
  have hold : p.Threads ([xs ++ ms ++ ys] ++ rest) := h
  have hin : ∀ id, id ∈ numbers [xs ++ ms ++ ys] ↔ id ∈ numbers [xs ++ ys] ∨ id ∈ ms.map Entry.id := by
    intro id
    simp only [numbers_singleton, List.map_append, List.mem_append]
    tauto
  change p'.Threads ([xs ++ ys] ++ rest)
  refine hold.replace ?_ ?_ (fun id hid => (hin id).2 (Or.inl hid)) (hoff.mono ?_) ?_
  · intro c hc
    rw [List.mem_singleton.1 hc]
    exact hlinked.strand
  · rw [numbers_singleton]
    exact hlinked.nodup
  · intro id hid
    refine (hin id).2 ?_
    rcases List.mem_append.1 hid with hid | hid
    · exact Or.inr hid
    · rw [numbers_singleton]
      exact Or.inl (sides_subset xs ys hid)
  · intro id hid hsome
    refine ((hin id).1 hid).resolve_right fun hm => ?_
    rw [(hvacant id hm).leaf?_eq_none] at hsome
    cases hsome

end Operations

/-- The operations on the chains of a pool are operations on lists: of chains in any order, each operation changes
those it is about, and the pool at no other place. -/
structure ActsOnChains (p : Pool V) (cs : List (List (Entry V))) : Prop where
  /-- Splicing a lone leaf in behind another one, and unlinking it again. -/
  spliceAfter : ∀ a x, a ≠ x → (p.leaf? a).isSome → p.Unlinked x →
    ∃ xs e ys rest, last xs = some a ∧ e.id = x ∧ cs.Perm ((xs ++ ys) :: [e] :: rest) ∧
      (p.spliceAfter (some a) (some x)).Yields fun p' => p.Spliced p' xs e ys rest
  /-- Splicing a lone leaf in before another one, and unlinking it again. -/
  spliceBefore : ∀ b x, b ≠ x → (p.leaf? b).isSome → p.Unlinked x →
    ∃ xs e ys rest, first ys = some b ∧ e.id = x ∧ cs.Perm ((xs ++ ys) :: [e] :: rest) ∧
      (p.spliceBefore (some b) (some x)).Yields fun p' => p.Spliced p' xs e ys rest
  /-- Unlinking a leaf, wherever it is. -/
  unlink : ∀ x, (p.leaf? x).isSome →
    ∃ xs e ys rest, e.id = x ∧ cs.Perm ((xs ++ e :: ys) :: rest) ∧
      (p.unlink (some x)).Yields fun p' => p.Detached p' xs e ys rest
  /-- Freeing a run, from a leaf to one at or after it. The live count has to cover the run, and it does in a pool that
  counts its leaves. -/
  vacateRun : ∀ a b, (p.leaf? a).isSome → p.AtOrAfter a b →
    ∃ xs ms ys rest, first ms = some a ∧ last ms = some b ∧ cs.Perm ((xs ++ ms ++ ys) :: rest) ∧
      (p.CountsLive → ms.length ≤ p.live) ∧ (ms.length ≤ p.live →
        (p.vacateRun (some a) (some b)).Yields fun (count, p') => p.RunFreed count p' xs ms ys rest)

/-- **Chain operations are list operations** in every pool whose live leaves form chains. -/
theorem Threads.actsOnChains {p : Pool V} {cs : List (List (Entry V))} (h : p.Threads cs) : p.ActsOnChains cs where
  spliceAfter := by
    intro a x hne ha hx
    obtain ⟨xs, f, ys, e, rest, rfl, rfl, hperm⟩ := h.exists_beside hne ha hx
    have hcut : xs ++ f :: ys = (xs ++ [f]) ++ ys := by simp
    rw [hcut] at hperm
    have hthreads := h.perm hperm
    obtain ⟨halone, hid⟩ := hthreads.beside
    have hsplice := hthreads.linked.spliceAfter_yields (by simp) halone hid
    rw [last_concat] at hsplice
    refine ⟨xs ++ [f], e, ys, rest, last_concat xs f, rfl, hperm, hthreads.spliced_yields hsplice ?_⟩
    exact (rewired_kept_by_modify p).spliceAfter (Rewired.refl p) _ _
  spliceBefore := by
    intro b x hne hb hx
    obtain ⟨xs, f, ys, e, rest, rfl, rfl, hperm⟩ := h.exists_beside hne hb hx
    have hthreads := h.perm hperm
    obtain ⟨halone, hid⟩ := hthreads.beside
    have hsplice := hthreads.linked.spliceBefore_yields (by simp) halone hid
    refine ⟨xs, e, f :: ys, rest, rfl, rfl, hperm, hthreads.spliced_yields hsplice ?_⟩
    exact (rewired_kept_by_modify p).spliceBefore (Rewired.refl p) _ _
  unlink := by
    intro x hx
    obtain ⟨xs, e, ys, rest, rfl, hperm⟩ := Entry.exists_place (h.all x hx)
    exact ⟨xs, e, ys, rest, rfl, hperm, (h.perm hperm).unlink_yields⟩
  vacateRun := by
    intro a b ha hab
    obtain ⟨xs, ms, ys, rest, hms, hfirst, hlast, hperm⟩ := h.exists_run ha hab
    have hthreads := h.perm hperm
    refine ⟨xs, ms, ys, rest, hfirst, hlast, hperm, hthreads.run_le_live, fun hcount => ?_⟩
    rw [← hfirst, ← hlast]
    exact hthreads.vacateRun_yields hms hcount

/-- Three chains: of two leaves, of one, and of one more. -/
def strung : Pool Nat :=
  afterAll perform empty 0 [.put [1] 10, .put [2] 20, .put [1] 30, .put [] 40, .connect (some ⟨1⟩) (some ⟨0⟩)]

theorem strung_actsOnChains :
    strung.Threads [[⟨⟨2⟩, [1], 30⟩], [⟨⟨1⟩, [2], 20⟩, ⟨⟨0⟩, [1], 10⟩], [⟨⟨3⟩, [], 40⟩]] ∧
      strung.ActsOnChains [[⟨⟨2⟩, [1], 30⟩], [⟨⟨1⟩, [2], 20⟩, ⟨⟨0⟩, [1], 10⟩], [⟨⟨3⟩, [], 40⟩]] := by
  have hthreads : strung.Threads [[⟨⟨2⟩, [1], 30⟩], [⟨⟨1⟩, [2], 20⟩, ⟨⟨0⟩, [1], 10⟩], [⟨⟨3⟩, [], 40⟩]] := by
    refine ⟨?_, by decide, ?_⟩
    · simp only [List.forall_mem_cons, List.not_mem_nil, IsEmpty.forall_iff, implies_true, and_true, Strand]
      decide +kernel
    · have hall : ∀ id ∈ strung.liveIds, id ∈ [⟨2⟩, ⟨1⟩, ⟨0⟩, (⟨3⟩ : LeafId)] := by decide +kernel
      exact fun id hid => hall id ((mem_liveIds id).2 hid)
  exact ⟨hthreads, hthreads.actsOnChains⟩

end Pool

end OrderedStore
