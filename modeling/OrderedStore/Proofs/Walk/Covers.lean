import Mathlib.Tactic
import OrderedStore.Proofs.Pool.Chained
import OrderedStore.Walk.Basic

/-!
# What a walk has left to meet

A walk *covers* a list of entries when they are a stretch of its chain and its ends are theirs. A step from
either end meets the entry at that end and leaves a walk that covers the others, so what a whole walk meets
is the list itself, forwards or backwards, without what the test of the walk leaves out. The bound on the
steps is never met: a chain is no longer than the pool that holds it.
-/

namespace OrderedStore

variable {V : Type}

/-- What a leaf stores, without its links. -/
def Leaf.item (leaf : Leaf V) : Bytes × V := (leaf.key, leaf.value)

def Entry.item (e : Entry V) : Bytes × V := (e.key, e.value)

/-- A list in the order in which it is met from its front or from its back. -/
def along {α : Type} (fromBack : Bool) (as : List α) : List α := if fromBack then as.reverse else as

@[simp] theorem along_false {α : Type} (as : List α) : along false as = as := rfl

@[simp] theorem along_true {α : Type} (as : List α) : along true as = as.reverse := rfl

theorem length_along {α : Type} (d : Bool) (as : List α) : (along d as).length = as.length := by
  cases d <;> simp

theorem along_eq_nil_iff {α : Type} {d : Bool} {as : List α} : along d as = [] ↔ as = [] := by
  cases d <;> simp

theorem along_along {α : Type} (d : Bool) (as : List α) : along d (along d as) = as := by
  cases d <;> simp

theorem mem_along {α : Type} {d : Bool} {as : List α} {a : α} : a ∈ along d as ↔ a ∈ as := by
  cases d <;> simp

namespace Walk

open Entry (first last first_cons last_singleton last_concat)

/-- The walk stands before a stretch of its chain and behind it, and that stretch has these entries. -/
structure Covers (w : Walk V) (es : List (Entry V)) : Prop where
  strand : ∃ before after, w.leaves.Strand before es after
  nodup : (es.map Entry.id).Nodup
  going : w.span.going = !es.isEmpty
  ends : es ≠ [] → w.span.front = first es ∧ w.span.back = last es

variable {w : Walk V} {es rest : List (Entry V)} {e : Entry V} {d : Bool}

/-- A strand between two links. -/
theorem covers_strand {p : Pool V} {ms : List (Entry V)} {before after front back : Link} {keeps : Bytes → Bool}
    (hp : p.Strand before ms after) (hnd : (ms.map Entry.id).Nodup)
    (hends : ms ≠ [] → front = first ms ∧ back = last ms) (hnone : ms = [] → front = none ∨ back = none) :
    Covers ⟨p, .between front back, d, keeps⟩ ms where
  strand := ⟨_, _, hp⟩
  nodup := hnd
  going := by
    unfold Span.between
    dsimp only
    cases ms with
    | nil => rcases hnone rfl with rfl | rfl <;> simp
    | cons m ms =>
        obtain ⟨rfl, rfl⟩ := hends (by simp)
        rcases List.eq_nil_or_concat' (m :: ms) with h | ⟨init, l, h⟩
        · simp at h
        · rw [h, last_concat, ← h]
          simp
  ends := hends

/-- The part of a chain between two links. -/
theorem covers_between {p : Pool V} {xs ms ys : List (Entry V)} {front back : Link} {keeps : Bytes → Bool}
    (hp : p.Linked (xs ++ ms ++ ys)) (hends : ms ≠ [] → front = first ms ∧ back = last ms)
    (hnone : ms = [] → front = none ∨ back = none) : Covers ⟨p, .between front back, d, keeps⟩ ms := by
  have hnd := hp.nodup
  rw [List.map_append, List.map_append, List.nodup_append', List.nodup_append'] at hnd
  exact covers_strand (Pool.strand_append.1 (Pool.strand_append.1 hp.strand).1).2 hnd.1.2.1 hends hnone

/-- Which keys a walk keeps has nothing to do with what it covers. -/
theorem Covers.keeping (h : w.Covers es) (keeps : Bytes → Bool) : Covers { w with keeps } es :=
  ⟨h.strand, h.nodup, h.going, h.ends⟩

theorem Covers.reverse (h : w.Covers es) : w.reverse.Covers es := ⟨h.strand, h.nodup, h.going, h.ends⟩

/-! ## One step -/

theorem Covers.step_nil (h : w.Covers []) (d : Bool) : w.step d = .ok none := by
  have hgoing : w.span.going = false := h.going
  unfold step Span.next Span.nextBack
  rw [hgoing]
  cases d <;> rfl

/-- The walk after its first leaf. -/
theorem Covers.step_front (h : w.Covers (e :: rest)) :
    ∃ leaf span, w.step false = .ok (some (leaf, { w with span })) ∧ leaf.item = e.item ∧
      Covers { w with span } rest := by
  obtain ⟨before, after, hleaf, hrest⟩ := h.strand
  obtain ⟨hfront, hback⟩ := h.ends (by simp)
  have hnd := h.nodup
  have hgoing : w.span.going = true := h.going
  rw [List.map_cons, List.nodup_cons] at hnd
  unfold step Span.next
  rw [if_neg Bool.false_ne_true, hgoing, hfront, hback, first_cons, Pool.get_ok hleaf]
  cases rest with
  | nil =>
      dsimp only [bind, Except.bind]
      rw [last_singleton, if_pos rfl, if_neg (by simp)]
      exact ⟨_, _, rfl, rfl, ⟨before, after, trivial⟩, hnd.2, rfl, fun hne => absurd rfl hne⟩
  | cons e' rest =>
      have hlast : last (e :: e' :: rest) = last (e' :: rest) := by simp [last]
      have hne : ¬ (some e.id : Link) = last (e :: e' :: rest) := by
        rw [hlast]
        exact fun he => hnd.1 (Entry.mem_of_last he.symm)
      dsimp only [bind, Except.bind]
      rw [if_neg hne, if_neg (by simp)]
      exact ⟨_, _, rfl, rfl, ⟨_, _, hrest⟩, hnd.2, rfl, fun _ => ⟨rfl, hlast⟩⟩

/-- The walk before its last leaf. -/
theorem Covers.step_back (h : w.Covers (rest ++ [e])) :
    ∃ leaf span, w.step true = .ok (some (leaf, { w with span })) ∧ leaf.item = e.item ∧
      Covers { w with span } rest := by
  obtain ⟨before, after, hstrand⟩ := h.strand
  obtain ⟨hfront, hback⟩ := h.ends (by simp)
  have hnd := h.nodup
  have hgoing : w.span.going = true := by
    rw [h.going]
    simp
  obtain ⟨hrest, hleaf, -⟩ := Pool.strand_append.1 hstrand
  have hnd' := (Pool.nodup_mid hnd).2
  rw [List.append_nil] at hnd'
  unfold step Span.nextBack
  rw [if_pos rfl, hgoing, hfront, hback, last_concat, Pool.get_ok hleaf]
  rcases List.eq_nil_or_concat' rest with rfl | ⟨rest, e', rfl⟩
  · dsimp only [bind, Except.bind]
    rw [List.nil_append, first_cons, if_pos rfl, if_neg (by simp)]
    exact ⟨_, _, rfl, rfl, ⟨before, after, trivial⟩, hnd', rfl, fun hne => absurd rfl hne⟩
  · have hhead : first (rest ++ [e'] ++ [e]) = first (rest ++ [e']) := Entry.first_append_left (by simp)
    have hne : ¬ first (rest ++ [e'] ++ [e]) = some e.id := mt (Pool.first_mid_eq_iff hnd).1 (by simp)
    have hlast : (last (rest ++ [e'])).or before = some e'.id := by
      rw [last_concat, Option.some_or]
    dsimp only [bind, Except.bind]
    rw [if_neg hne]
    refine ⟨_, _, rfl, rfl, ⟨_, _, hrest⟩, hnd', ?_, fun _ => ⟨?_, ?_⟩⟩
    · simp
    · exact hhead
    · dsimp only
      rw [hlast, last_concat]

/-- **One step** from an end meets the entry at that end. -/
theorem Covers.step (h : w.Covers es) (hd : along d es = e :: rest) :
    ∃ leaf span, w.step d = .ok (some (leaf, { w with span })) ∧ leaf.item = e.item ∧
      Covers { w with span } (along d rest) := by
  have hes : es = along d (e :: rest) := by rw [← hd, along_along]
  subst hes
  cases d with
  | false => exact h.step_front
  | true =>
      rw [along_true, List.reverse_cons] at h
      exact h.step_back

/-! ## The next kept leaf -/

theorem Covers.seek_none (h : w.Covers es) {fuel : Nat} (hfuel : es.length < fuel)
    (hout : ∀ x ∈ es, w.keeps x.key = false) : w.seek d fuel = .ok none := by
  induction fuel generalizing w es with
  | zero => exact absurd hfuel (Nat.not_lt_zero _)
  | succ fuel ih =>
      rw [seek]
      cases hd : along d es with
      | nil =>
          -- nothing is left to meet from this end, so nothing is left at all
          obtain rfl := along_eq_nil_iff.1 hd
          rw [h.step_nil]
          rfl
      | cons e rest =>
          obtain ⟨leaf, span, hstep, hitem, hrest⟩ := h.step hd
          have hkey : leaf.key = e.key := congrArg Prod.fst hitem
          have he : w.keeps e.key = false := hout e (mem_along.1 (hd ▸ List.mem_cons_self))
          have hlen := length_along d es
          rw [hd, List.length_cons] at hlen
          rw [hstep]
          dsimp only [bind, Except.bind]
          rw [hkey, he, if_neg Bool.false_ne_true]
          refine ih hrest (by rw [length_along]; omega) fun x hx => ?_
          exact hout x (mem_along.1 (hd ▸ List.mem_cons_of_mem _ (mem_along.1 hx)))

theorem Covers.seek_some (h : w.Covers es) {fuel : Nat} (hfuel : es.length < fuel) {skipped : List (Entry V)}
    (hd : along d es = skipped ++ e :: rest) (hout : ∀ x ∈ skipped, w.keeps x.key = false)
    (hkeep : w.keeps e.key = true) :
    ∃ leaf span, w.seek d fuel = .ok (some (leaf, { w with span })) ∧ leaf.item = e.item ∧
      Covers { w with span } (along d rest) := by
  induction skipped generalizing w es fuel with
  | nil =>
      obtain ⟨leaf, span, hstep, hitem, hrest⟩ := h.step hd
      have hkey : leaf.key = e.key := congrArg Prod.fst hitem
      obtain ⟨fuel, rfl⟩ := Nat.exists_eq_succ_of_ne_zero (Nat.ne_of_gt (Nat.zero_lt_of_lt hfuel))
      refine ⟨leaf, span, ?_, hitem, hrest⟩
      rw [seek, hstep]
      dsimp only [bind, Except.bind]
      rw [hkey, hkeep, if_pos rfl]
      rfl
  | cons x skipped ih =>
      rw [List.cons_append] at hd
      obtain ⟨leaf, span, hstep, hitem, hrest⟩ := h.step hd
      have hkey : leaf.key = x.key := congrArg Prod.fst hitem
      have hlen := length_along d es
      rw [hd, List.length_cons] at hlen
      obtain ⟨fuel, rfl⟩ := Nat.exists_eq_succ_of_ne_zero (Nat.ne_of_gt (Nat.zero_lt_of_lt hfuel))
      rw [seek, hstep]
      dsimp only [bind, Except.bind]
      rw [hkey, hout x List.mem_cons_self, if_neg Bool.false_ne_true]
      refine ih hrest (by rw [length_along]; omega) (along_along d _) ?_ hkeep
      exact fun y hy => hout y (List.mem_cons_of_mem _ hy)

/-- The leaves of a stretch are different live leaves, and a tower has room for no more than it bounds. -/
theorem Covers.length_lt_fuel (h : w.Covers es) : es.length < w.fuel := by
  obtain ⟨before, after, hstrand⟩ := h.strand
  have hlen := Pool.length_le_capacity h.nodup hstrand.isSome
  rw [List.length_map] at hlen
  exact Nat.lt_succ_of_le hlen

/-- What the next step from an end answers. -/
theorem Covers.seek_found (h : w.Covers es) (d : Bool) :
    ∃ met, w.seek d w.fuel = .ok met ∧
      met.map (fun x => x.1.item) = ((along d es).find? fun e => w.keeps e.key).map Entry.item := by
  cases hfound : (along d es).find? fun e => w.keeps e.key with
  | none =>
      -- no entry is kept, so all of them are passed by
      have hout := List.find?_eq_none.1 hfound
      refine ⟨none, h.seek_none h.length_lt_fuel fun x hx => ?_, rfl⟩
      exact Bool.eq_false_of_not_eq_true (hout x (mem_along.2 hx))
  | some e =>
      obtain ⟨hkeep, skipped, rest, hd, hout⟩ := List.find?_eq_some_iff_append.1 hfound
      obtain ⟨leaf, span, hseek, hitem, -⟩ :=
        h.seek_some h.length_lt_fuel hd (fun x hx => by simpa using hout x hx) hkeep
      exact ⟨_, hseek, congrArg some hitem⟩

theorem Covers.next_found (h : w.Covers es) :
    ∃ met, w.next = .ok met ∧
      met.map (fun x => x.1.item) = ((along w.descending es).find? fun e => w.keeps e.key).map Entry.item :=
  h.seek_found w.descending

theorem Covers.nextBack_found (h : w.Covers es) :
    ∃ met, w.nextBack = .ok met ∧
      met.map (fun x => x.1.item) = ((along (!w.descending) es).find? fun e => w.keeps e.key).map Entry.item :=
  h.seek_found !w.descending

/-! ## The whole walk -/

/-- **A walk meets what it covers**, in the order of its direction, except for what its test leaves out. -/
theorem Covers.trace (h : w.Covers es) {steps : Nat} (hsteps : es.length < steps) :
    ∃ leaves, w.trace steps = .ofList leaves ∧
      leaves.map Leaf.item = ((along w.descending es).filter fun e => w.keeps e.key).map Entry.item := by
  induction steps generalizing w es with
  | zero => exact absurd hsteps (Nat.not_lt_zero _)
  | succ steps ih =>
      rw [Walk.trace, next]
      cases hkept : (along w.descending es).filter fun e => w.keeps e.key with
      | nil =>
          -- what is left has nothing to keep, and the walk ends
          have hout := List.filter_eq_nil_iff.1 hkept
          rw [h.seek_none h.length_lt_fuel fun x hx => Bool.eq_false_of_not_eq_true (hout x (mem_along.2 hx))]
          exact ⟨[], rfl, rfl⟩
      | cons e kept =>
          -- the next kept entry, after those that are passed by; the walk goes on from there
          obtain ⟨skipped, rest, hd, hout, hkeep, hrest⟩ := List.filter_eq_cons_iff.1 hkept
          obtain ⟨leaf, span, hseek, hitem, hcovers⟩ :=
            h.seek_some h.length_lt_fuel hd (fun x hx => Bool.eq_false_of_not_eq_true (hout x hx)) hkeep
          have hlen := length_along w.descending es
          rw [hd, List.length_append, List.length_cons] at hlen
          obtain ⟨leaves, htrace, hleaves⟩ := ih hcovers (by rw [length_along]; omega)
          dsimp only at hleaves
          rw [along_along, hrest] at hleaves
          refine ⟨leaf :: leaves, ?_, ?_⟩
          · rw [hseek]
            exact congrArg (Trace.item leaf) htrace
          · rw [List.map_cons, List.map_cons, hitem, hleaves]

/-- All leaves of a walk, read to its end. -/
theorem Covers.toList (h : w.Covers es) :
    ∃ leaves, w.toList = .ok leaves ∧
      leaves.map Leaf.item = ((along w.descending es).filter fun e => w.keeps e.key).map Entry.item := by
  obtain ⟨leaves, htrace, hleaves⟩ := h.trace h.length_lt_fuel
  refine ⟨leaves, ?_, hleaves⟩
  rw [Walk.toList, htrace, Trace.toList_ofList]

/-! ## Walks that leave nothing out -/

/-- The walk covers these entries, goes in direction `d` and keeps every key. -/
structure Reads (w : Walk V) (d : Bool) (es : List (Entry V)) : Prop where
  covers : w.Covers es
  direction : w.descending = d
  keeps : ∀ key, w.keeps key = true

theorem Reads.reverse (h : w.Reads d es) : w.reverse.Reads (!d) es where
  covers := h.covers.reverse
  direction := congrArg (!·) h.direction
  keeps := h.keeps

theorem Reads.kept_eq (h : w.Reads d es) (es' : List (Entry V)) : es'.filter (fun e => w.keeps e.key) = es' :=
  List.filter_eq_self.2 fun e _ => h.keeps e.key

theorem Reads.find?_eq (h : w.Reads d es) (es' : List (Entry V)) :
    es'.find? (fun e => w.keeps e.key) = es'.head? := by
  cases es' with
  | nil => rfl
  | cons e es' => exact List.find?_cons_of_pos (h.keeps e.key)

theorem Reads.trace (h : w.Reads d es) {steps : Nat} (hsteps : es.length < steps) :
    ∃ leaves, w.trace steps = .ofList leaves ∧ leaves.map Leaf.item = (along d es).map Entry.item := by
  obtain ⟨leaves, htrace, hleaves⟩ := h.covers.trace hsteps
  rw [h.kept_eq, h.direction] at hleaves
  exact ⟨leaves, htrace, hleaves⟩

theorem Reads.toList (h : w.Reads d es) :
    ∃ leaves, w.toList = .ok leaves ∧ leaves.map Leaf.item = (along d es).map Entry.item := by
  obtain ⟨leaves, hlist, hleaves⟩ := h.covers.toList
  rw [h.kept_eq, h.direction] at hleaves
  exact ⟨leaves, hlist, hleaves⟩

/-- Work on all leaves of a walk is work on the list of them. -/
theorem Reads.mapM {α : Type} (h : w.Reads d es) (f : Leaf V → Except Fault α) :
    ∃ leaves : List (Leaf V), w.mapM f = leaves.mapM f ∧ leaves.map Leaf.item = (along d es).map Entry.item := by
  obtain ⟨leaves, htrace, hleaves⟩ := h.trace h.covers.length_lt_fuel
  exact ⟨leaves, by rw [Walk.mapM, htrace, Trace.ofList_mapM], hleaves⟩

theorem Reads.next (h : w.Reads d es) :
    ∃ met, w.next = .ok met ∧ met.map (fun x => x.1.item) = (along d es).head?.map Entry.item := by
  obtain ⟨met, hnext, hmet⟩ := h.covers.next_found
  rw [h.find?_eq, h.direction] at hmet
  exact ⟨met, hnext, hmet⟩

theorem Reads.nextBack (h : w.Reads d es) :
    ∃ met, w.nextBack = .ok met ∧ met.map (fun x => x.1.item) = (along (!d) es).head?.map Entry.item := by
  obtain ⟨met, hnext, hmet⟩ := h.covers.nextBack_found
  rw [h.find?_eq, h.direction] at hmet
  exact ⟨met, hnext, hmet⟩

end Walk

end OrderedStore
