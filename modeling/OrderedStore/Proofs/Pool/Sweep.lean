import Mathlib.Tactic
import OrderedStore.Proofs.Pool.Threads
import OrderedStore.Proofs.Walk.Circles

/-!
# Freeing a run whatever the links

A run is freed leaf by leaf, along the next links, until its last leaf has been freed. On a damaged pool the links may
lead anywhere: round in a circle, to leaves of other chains, to slots freed long ago, past the last leaf. Here the loop
is told without any bound, by how often it is entered and which leaves it frees, and from any pool that counts its
leaves it comes to an end.

What carries the argument is the live count and not the length of anything. Each round starts on a live leaf and frees
it, so the count goes down by one and the slot is vacant from then on. Coming back to it, the loop finds no leaf and
stops there. So no leaf is freed twice, none that was not live, and after as many rounds as there were live leaves
there is nothing left to stand on: the loop is entered once more at the most.
-/

namespace OrderedStore

/-- The faults at which freeing a run stops: a link to no leaf, and the end of a chain short of the last leaf. -/
def Fault.StopsSweep : Fault → Prop
  | .dangling _ | .runCutShort => True
  | _ => False

namespace Pool

open Edit
open Fault (StopsSweep)

variable {V : Type}

/-- Freeing leaves from `current` along the chain up to `last`, without a bound. The loop is entered this often, frees
these leaves in this order, and comes to a pool, with the next stamp, or to a fault. -/
inductive Sweep (last : Link) :
    (entered : Nat) → (freed : List LeafId) → Pool V → (current : Link) → Stamp → Except Fault (Pool V × Stamp) → Prop
  /-- The link leads to no leaf. -/
  | astray {p : Pool V} {current : Link} {now : Stamp} {fault : Fault} (lost : p.nextOf current = .error fault) :
    Sweep last 1 [] p current now (.error fault)
  /-- The leaf freed is the last one. -/
  | arrives {p p' : Pool V} {id : LeafId} {next : Link} {leaf : Leaf V} {now later : Stamp}
    (read : p.nextOf (some id) = .ok next) (done : (p.vacate (some id)).run now = .ok ((leaf, p'), later))
    (here : some id = last) : Sweep last 1 [id] p (some id) now (.ok (p', later))
  /-- The leaf freed is not the last one, but nothing follows it. -/
  | cutShort {p p' : Pool V} {id : LeafId} {leaf : Leaf V} {now later : Stamp}
    (read : p.nextOf (some id) = .ok none) (done : (p.vacate (some id)).run now = .ok ((leaf, p'), later))
    (elsewhere : some id ≠ last) : Sweep last 1 [id] p (some id) now (.error .runCutShort)
  /-- The leaf freed is not the last one, and the loop is entered again. -/
  | onwards {entered : Nat} {freed : List LeafId} {p p' : Pool V} {id : LeafId} {next : Link} {leaf : Leaf V}
    {now later : Stamp} {result : Except Fault (Pool V × Stamp)}
    (read : p.nextOf (some id) = .ok next) (done : (p.vacate (some id)).run now = .ok ((leaf, p'), later))
    (elsewhere : some id ≠ last) (more : next ≠ none) (rest : Sweep last entered freed p' next later result) :
    Sweep last (entered + 1) (id :: freed) p (some id) now result

/-! ## One leaf freed -/

theorem nextOf_eq_ok {p : Pool V} {link next : Link} (h : p.nextOf link = .ok next) :
    ∃ id leaf, link = some id ∧ p.leaf? id = some leaf ∧ leaf.next = next := by
  unfold nextOf at h
  obtain ⟨leaf, hget, hnext⟩ := exists_of_bind_eq_ok h
  obtain ⟨id, rfl, hl⟩ := get_eq_ok hget
  exact ⟨id, leaf, rfl, hl, Except.ok.inj hnext⟩

theorem leaf?_of_nextOf {p : Pool V} {id : LeafId} {next : Link} (h : p.nextOf (some id) = .ok next) :
    ∃ leaf, p.leaf? id = some leaf := by
  obtain ⟨id', leaf, heq, hl, -⟩ := nextOf_eq_ok h
  obtain rfl := Option.some.inj heq
  exact ⟨leaf, hl⟩

/-- A pool from which some leaves have been freed: what they were counted for is gone from the count, which is right,
and their slots are vacant, like those that were vacant before. -/
structure Freed (p : Pool V) (ids : List LeafId) (q : Pool V) : Prop where
  nodup : ids.Nodup
  live : ∀ id ∈ ids, (p.leaf? id).isSome
  vacant : ∀ id ∈ ids, q.IsVacant id
  stays : ∀ id, p.IsVacant id → q.IsVacant id
  fewer : ∀ id, (q.leaf? id).isSome → (p.leaf? id).isSome
  counts : q.CountsLive
  count : q.live + ids.length = p.live

theorem freed_nil {p : Pool V} (hp : p.CountsLive) : p.Freed [] p :=
  ⟨List.nodup_nil, by simp, by simp, fun _ h => h, fun _ h => h, hp, rfl⟩

/-- **A round takes one leaf off the count.** -/
theorem freed_of_vacate {p p' : Pool V} {id : LeafId} {leaf old : Leaf V} {now later : Stamp} (hp : p.CountsLive)
    (hl : p.leaf? id = some leaf) (hrun : (p.vacate (some id)).run now = .ok ((old, p'), later)) :
    p.Freed [id] p' := by
  obtain ⟨-, hslot, -, -, hlive⟩ := (vacate_sets hl).ensures now _ _ hrun
  have hleaf := leaf?_update hslot
  have hsome : (p.leaf? id).isSome := by rw [hl, Option.isSome_some]
  have hpos : [id].length ≤ p.live := hp.length_le_live (List.nodup_singleton id) (by simpa using hsome)
  rw [List.length_singleton] at hpos
  refine ⟨List.nodup_singleton id, by simp [hl], ?_, fun _ h => h.of_update hl hslot, ?_, ?_, ?_⟩
  · intro x hx
    rw [List.mem_singleton.1 hx]
    exact ⟨p.free, by rw [hslot, Function.update_self]⟩
  · intro x hx
    by_cases heq : x = id
    · rwa [heq]
    · rwa [hleaf, Function.update_of_ne heq] at hx
  · obtain ⟨ids, hnd, hids, hcount⟩ := hp
    refine ⟨ids.erase id, hnd.erase id, ?_, ?_⟩
    · intro x
      rw [hnd.mem_erase_iff, hids, hleaf]
      by_cases heq : x = id
      · subst heq
        simp [Slot.leaf?]
      · simp [heq]
    · rw [List.length_erase_of_mem ((hids id).2 hsome)]
      omega
  · rw [List.length_singleton]
    omega

/-- What is freed later was live still, so it was not freed before. -/
theorem Freed.cons {p q r : Pool V} {id : LeafId} {ids : List LeafId} (h : p.Freed [id] q) (h' : q.Freed ids r) :
    p.Freed (id :: ids) r where
  nodup := by
    refine List.nodup_cons.2 ⟨fun hid => ?_, h'.nodup⟩
    have hsome := h'.live id hid
    rw [(h.vacant id (by simp)).leaf?_eq_none] at hsome
    cases hsome
  live := List.forall_mem_cons.2 ⟨h.live id (by simp), fun x hx => h.fewer x (h'.live x hx)⟩
  vacant := List.forall_mem_cons.2 ⟨h'.stays id (h.vacant id (by simp)), h'.vacant⟩
  stays x hx := h'.stays x (h.stays x hx)
  fewer x hx := h.fewer x (h'.fewer x hx)
  counts := h'.counts
  count := by
    have hone := h.count
    have hrest := h'.count
    rw [List.length_singleton] at hone
    rw [List.length_cons]
    omega

/-! ## The whole loop -/

section Sweep

variable {last current : Link} {entered : Nat} {freed : List LeafId} {p : Pool V} {now : Stamp}
  {result : Except Fault (Pool V × Stamp)}

/-- **The loop frees different live leaves** and is entered at most once more often than it frees one, whether it comes
to an answer or to a fault. -/
theorem Sweep.frees (h : Sweep last entered freed p current now result) (hp : p.CountsLive) :
    ∃ q, p.Freed freed q ∧ entered ≤ freed.length + 1 ∧ ∀ p' later, result = .ok (p', later) → p' = q := by
  induction h with
  | astray lost => exact ⟨_, freed_nil hp, Nat.le_refl _, fun p' later hok => nomatch hok⟩
  | arrives read done here =>
      obtain ⟨leaf, hl⟩ := leaf?_of_nextOf read
      refine ⟨_, freed_of_vacate hp hl done, by simp, fun p' later hok => ?_⟩
      exact (Prod.mk.inj (Except.ok.inj hok)).1.symm
  | cutShort read done elsewhere =>
      obtain ⟨leaf, hl⟩ := leaf?_of_nextOf read
      exact ⟨_, freed_of_vacate hp hl done, by simp, fun p' later hok => nomatch hok⟩
  | onwards read done elsewhere more rest ih =>
      obtain ⟨leaf, hl⟩ := leaf?_of_nextOf read
      have hone := freed_of_vacate hp hl done
      obtain ⟨q, hq, hle, hok⟩ := ih hone.counts
      refine ⟨q, hone.cons hq, ?_, hok⟩
      rw [List.length_cons]
      omega

/-- **The loop comes to an end**: the live count goes down from round to round. -/
theorem exists_sweep (last current : Link) (p : Pool V) (now : Stamp) (hp : p.CountsLive) :
    ∃ entered freed result, Sweep last entered freed p current now result := by
  induction hn : p.live using Nat.strong_induction_on generalizing p current now with
  | _ n ih =>
      cases hread : p.nextOf current with
      | error fault => exact ⟨1, [], _, .astray hread⟩
      | ok next =>
          obtain ⟨id, leaf, rfl, hl, -⟩ := nextOf_eq_ok hread
          obtain ⟨⟨old, p'⟩, later, hrun, -⟩ := vacate_sets hl now
          have hone := freed_of_vacate hp hl hrun
          by_cases hhere : some id = last
          · exact ⟨1, [id], _, .arrives hread hrun hhere⟩
          · cases next with
            | none => exact ⟨1, [id], _, .cutShort hread hrun hhere⟩
            | some next =>
                have hcount := hone.count
                rw [List.length_singleton] at hcount
                obtain ⟨entered, freed, result, hrest⟩ := ih p'.live (by omega) (some next) p' later hone.counts rfl
                exact ⟨entered + 1, id :: freed, result, .onwards hread hrun hhere (by simp) hrest⟩

/-- One round: what is left to do once a leaf is freed. -/
theorem vacateThrough_round {p p' : Pool V} {id : LeafId} {next : Link} {leaf : Leaf V} {now later : Stamp}
    (read : p.nextOf (some id) = .ok next) (done : (p.vacate (some id)).run now = .ok ((leaf, p'), later))
    (last : Link) (steps : Nat) :
    (vacateThrough last (steps + 1) p (some id)).run now =
      if some id = last then .ok ((1, p'), later)
      else if next = none then .error .runCutShort
      else ((vacateThrough last steps p' next).run later).map fun ((count, q), after) => ((count + 1, q), after) := by
  rw [vacateThrough, read, lift_ok_bind, run_bind_ok done]
  dsimp only
  by_cases hhere : some id = last
  · rw [if_pos hhere, if_pos hhere]
    rfl
  · rw [if_neg hhere, if_neg hhere]
    by_cases hend : next = none
    · rw [if_pos hend, if_pos hend]
      rfl
    · rw [if_neg hend, if_neg hend]
      cases hrest : (vacateThrough last steps p' next).run later with
      | error fault => exact run_bind_error hrest
      | ok rest => exact run_bind_ok hrest

/-- **With any allowance of steps that covers its rounds**, freeing a run is the loop. -/
theorem Sweep.run_eq (h : Sweep last entered freed p current now result) {steps : Nat} (hsteps : entered ≤ steps) :
    (vacateThrough last steps p current).run now = result.map fun (q, later) => ((freed.length, q), later) := by
  induction h generalizing steps with
  | astray lost =>
      obtain ⟨steps, rfl⟩ := Nat.exists_eq_add_of_le' hsteps
      rw [vacateThrough, lost]
      rfl
  | arrives read done here =>
      obtain ⟨steps, rfl⟩ := Nat.exists_eq_add_of_le' hsteps
      rw [vacateThrough_round read done, if_pos here]
      rfl
  | cutShort read done elsewhere =>
      obtain ⟨steps, rfl⟩ := Nat.exists_eq_add_of_le' hsteps
      rw [vacateThrough_round read done, if_neg elsewhere, if_pos rfl]
      rfl
  | onwards read done elsewhere more rest ih =>
      obtain ⟨steps, rfl⟩ : ∃ k, steps = k + 1 := ⟨steps - 1, by omega⟩
      rw [vacateThrough_round read done, if_neg elsewhere, if_neg more, ih (by omega)]
      rename_i result
      cases result with
      | error fault => rfl
      | ok result => rfl

/-- The loop is entered at most once more often than leaves are live, and frees no more leaves than that. -/
theorem Sweep.bounded (h : Sweep last entered freed p current now result) (hp : p.CountsLive) :
    entered ≤ p.live + 1 ∧ freed.length ≤ p.live := by
  obtain ⟨q, hq, hentered, -⟩ := h.frees hp
  have hcount := hq.count
  omega

end Sweep

/-! ## Where freeing a run stops -/

section Faults

variable {F : Fault → Prop} (hF : ∀ link, F (.dangling link))
include hF

theorem modify_faults (p : Pool V) (link : Link) (f : Leaf V → Leaf V) (now : Stamp) :
    FaultsOnly F ((p.modify link f).run now) := by
  unfold modify
  refine FaultsOnly.run_bind (FaultsOnly.run_lift (get_faults hF)) fun leaf mid _ => ?_
  cases link with
  | none => exact FaultsOnly.ok
  | some id =>
      dsimp only
      unfold write
      cases p.root with
      | none => exact FaultsOnly.ok
      | some t => exact FaultsOnly.ok

theorem connect_faults (p : Pool V) (a b : Link) (now : Stamp) : FaultsOnly F ((p.connect a b).run now) := by
  have hside : ∀ (q : Pool V) (link : Link) (f : Leaf V → Leaf V) (now : Stamp),
      FaultsOnly F ((if link.isSome then q.modify link f else pure q : Edit (Pool V)).run now) := by
    intro q link f now
    split
    · exact q.modify_faults hF link f now
    · exact FaultsOnly.ok
  rw [connect_eq]
  exact FaultsOnly.run_bind (hside p a _ now) fun q mid _ => hside q b _ mid

end Faults

theorem Sweep.stops {last current : Link} {entered : Nat} {freed : List LeafId} {p : Pool V} {now : Stamp}
    {result : Except Fault (Pool V × Stamp)} (h : Sweep last entered freed p current now result) :
    FaultsOnly StopsSweep result := by
  induction h with
  | astray lost => exact FaultsOnly.error (nextOf_faults (fun _ => trivial) _ lost)
  | arrives _ _ _ => exact FaultsOnly.ok
  | cutShort _ _ _ => exact FaultsOnly.error trivial
  | onwards _ _ _ _ _ ih => exact ih

/-! ## Freeing a run -/

section VacateRun

variable {p : Pool V}

theorem CountsLive.vacateThrough_stops (hp : p.CountsLive) (last current : Link) (now : Stamp) :
    FaultsOnly StopsSweep ((vacateThrough last (p.live + 1) p current).run now) := by
  obtain ⟨entered, freed, result, h⟩ := exists_sweep last current p now hp
  have hstops := h.stops
  rw [h.run_eq (h.bounded hp).1]
  cases result with
  | error fault => exact FaultsOnly.error (hstops fault rfl)
  | ok result => exact FaultsOnly.ok

theorem CountsLive.vacateRun_stops (hp : p.CountsLive) (first last : Link) (now : Stamp) :
    FaultsOnly StopsSweep ((p.vacateRun first last).run now) := by
  unfold vacateRun
  refine FaultsOnly.run_bind (FaultsOnly.run_lift (prevOf_faults fun _ => trivial)) fun before _ _ => ?_
  refine FaultsOnly.run_bind (FaultsOnly.run_lift (nextOf_faults fun _ => trivial)) fun after _ _ => ?_
  refine FaultsOnly.run_bind (hp.vacateThrough_stops last first _) fun freed _ _ => ?_
  exact FaultsOnly.run_bind (freed.2.connect_faults (fun _ => trivial) before after _) fun _ _ _ => FaultsOnly.ok

/-- What freeing a run answers is what its loop freed; joining what was around the run frees nothing and brings no
leaf back. -/
theorem CountsLive.vacateRun_answers (hp : p.CountsLive) (first last : Link) (now : Stamp) :
    (p.vacateRun first last).EnsuresFrom now fun (count, p') _ =>
      ∃ entered freed q later, Sweep last entered freed p first now (.ok (q, later)) ∧ count = freed.length ∧
        p'.live + count = p.live ∧ ∀ id ∈ freed, p'.IsVacant id := by
  unfold vacateRun
  refine EnsuresFrom.bind_lift fun before _ => EnsuresFrom.bind_lift fun after _ => ?_
  have hloop : (vacateThrough last (p.live + 1) p first).EnsuresFrom now fun a later =>
      ∃ entered freed, Sweep last entered freed p first now (.ok (a.2, later)) ∧ a.1 = freed.length := by
    intro a later hrun
    obtain ⟨entered, freed, result, h⟩ := exists_sweep last first p now hp
    rw [h.run_eq (h.bounded hp).1] at hrun
    cases result with
    | error fault => cases hrun
    | ok result =>
        cases hrun
        exact ⟨entered, freed, h, rfl⟩
  refine EnsuresFrom.bind hloop ?_
  rintro ⟨count, q⟩ later ⟨entered, freed, h, rfl⟩
  obtain ⟨q', hfreed, -, hok⟩ := h.frees hp
  obtain rfl := hok q later rfl
  have hrewired := (rewired_kept_by_modify q).connect (Rewired.refl q) before after later
  refine EnsuresFrom.bind hrewired fun p' next hp' => EnsuresFrom.pure ?_
  refine ⟨entered, freed, q, later, h, rfl, ?_, fun id hid => hp'.isVacant (hfreed.vacant id hid)⟩
  rw [hp'.live]
  exact hfreed.count

end VacateRun

/-- Freeing a run from `first` to `last` comes to an end, wherever the links lead. -/
structure RunEnds (p : Pool V) (first last : Link) (now : Stamp) : Prop where
  /-- Without any bound, the loop comes to an answer or to a fault. -/
  ends : ∃ entered freed result, Sweep last entered freed p first now result
  /-- However it ends, it frees different leaves, all live before, and is entered at most once more than there are
  such leaves. -/
  bounded : ∀ entered freed result, Sweep last entered freed p first now result →
    entered ≤ p.live + 1 ∧ freed.length ≤ p.live ∧ freed.Nodup ∧ ∀ id ∈ freed, (p.leaf? id).isSome
  /-- An allowance of one step more than there are live leaves, or of any number above that, makes no difference. -/
  allowance : ∀ entered freed result, Sweep last entered freed p first now result → ∀ steps, p.live < steps →
    (vacateThrough last steps p first).run now = result.map fun (q, later) => ((freed.length, q), later)
  /-- An answer counts the leaves that the loop went through: by so many the live count went down, and the slot of
  each is vacant. -/
  answers : ∀ count p' next, (p.vacateRun first last).run now = .ok ((count, p'), next) →
    ∃ entered freed q later, Sweep last entered freed p first now (.ok (q, later)) ∧ count = freed.length ∧
      p'.live + count = p.live ∧ ∀ id ∈ freed, p'.IsVacant id
  /-- Otherwise a link led to no leaf, or the chain ended before its last leaf. -/
  faults : FaultsOnly StopsSweep ((p.vacateRun first last).run now)

/-- **Freeing a run comes to an end on any links**, if the pool counts its leaves. -/
theorem CountsLive.runEnds {p : Pool V} (hp : p.CountsLive) (first last : Link) (now : Stamp) :
    p.RunEnds first last now where
  ends := exists_sweep last first p now hp
  bounded := by
    intro entered freed result h
    obtain ⟨q, hq, -⟩ := h.frees hp
    exact ⟨(h.bounded hp).1, (h.bounded hp).2, hq.nodup, hq.live⟩
  allowance := by
    intro entered freed result h steps hsteps
    have hbound := (h.bounded hp).1
    exact h.run_eq (by omega)
  answers count p' next hrun := hp.vacateRun_answers first last now (count, p') next hrun
  faults := hp.vacateRun_stops first last now

/-- Two leaves that lead to each other, and a third one beside them. -/
def ringed : Pool Nat :=
  afterAll perform empty 0
    [.put [1] 10, .put [2] 20, .put [3] 30, .connect (some ⟨0⟩) (some ⟨1⟩), .connect (some ⟨1⟩) (some ⟨0⟩)]

theorem ringed_runEnds : ringed.CountsLive ∧ ringed.RunEnds (some ⟨0⟩) (some ⟨2⟩) 9 := by
  have hcounts : ringed.CountsLive := by decide +kernel
  exact ⟨hcounts, hcounts.runEnds (some ⟨0⟩) (some ⟨2⟩) 9⟩

/-- The circle never comes to the third leaf, and breaks where its first leaf was. -/
example : ((ringed.vacateRun (some ⟨0⟩) (some ⟨2⟩)).run 9).map Prod.snd = .error (.dangling (some ⟨0⟩)) := by
  decide +kernel

end Pool

end OrderedStore
