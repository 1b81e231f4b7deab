import Mathlib.Tactic
import OrderedStore.Proofs.Walk.Drive

/-!
# Listings taken from both ends

Steps from both ends take a list apart: what they got from its front, what they left, and what they got from its
back, the other way round, always make up the whole list. So each end gets the list from its own side in order,
no element is got twice, and a step gets nothing just if nothing is left, which stays so. A walk that covers some
entries is taken apart in this way whatever the steps are.
-/

namespace OrderedStore

variable {α β V : Type}

/-- What the steps from one end got. -/
def gotFrom (far : Bool) (steps : List Bool) (got : List (Option α)) : List α :=
  (steps.zip got).filterMap fun x => if x.1 = far then x.2 else none

/-- What steps from the ends of a list leave of it. -/
def leaveEnds : List Bool → List α → List α
  | [], as => as
  | far :: steps, as => leaveEnds steps (along far (along far as).tail)

theorem perm_along (far : Bool) (as : List α) : (along far as).Perm as := by
  cases far with
  | false => exact List.Perm.refl as
  | true => exact List.reverse_perm as

theorem along_map (far : Bool) (f : α → β) (as : List α) : along far (as.map f) = (along far as).map f := by
  cases far with
  | false => rfl
  | true => exact List.map_reverse.symm

/-- One step gets the element at its end, if there is one, and leaves the others. -/
theorem takeEnds_cons (far : Bool) (steps : List Bool) (as : List α) :
    takeEnds (far :: steps) as = (along far as).head? :: takeEnds steps (along far (along far as).tail) := by
  rw [takeEnds]
  cases h : along far as with
  | nil =>
      obtain rfl := along_eq_nil_iff.1 h
      cases far <;> rfl
  | cons a rest => rfl

theorem length_takeEnds (steps : List Bool) (as : List α) : (takeEnds steps as).length = steps.length := by
  induction steps generalizing as with
  | nil => rfl
  | cons far steps ih => rw [takeEnds_cons, List.length_cons, List.length_cons, ih]

theorem takeEnds_map (f : α → β) (steps : List Bool) (as : List α) :
    takeEnds steps (as.map f) = (takeEnds steps as).map (Option.map f) := by
  induction steps generalizing as with
  | nil => rfl
  | cons far steps ih =>
      rw [takeEnds_cons, takeEnds_cons, along_map, List.head?_map, ← List.map_tail, along_map, ih, List.map_cons]

theorem take_takeEnds (n : Nat) (steps : List Bool) (as : List α) :
    (takeEnds steps as).take n = takeEnds (steps.take n) as := by
  induction steps generalizing n as with
  | nil => simp [takeEnds]
  | cons far steps ih =>
      cases n with
      | zero => rfl
      | succ n => rw [takeEnds_cons, List.take_succ_cons, List.take_succ_cons, takeEnds_cons, ih]

theorem leaveEnds_nil (steps : List Bool) : leaveEnds steps ([] : List α) = [] := by
  induction steps with
  | nil => rfl
  | cons far steps ih => cases far <;> exact ih

theorem leaveEnds_append (steps steps' : List Bool) (as : List α) :
    leaveEnds (steps ++ steps') as = leaveEnds steps' (leaveEnds steps as) := by
  induction steps generalizing as with
  | nil => rfl
  | cons far steps ih => exact ih _

/-- **A step gets the end of what the steps before it left.** -/
theorem getElem?_takeEnds (n : Nat) (steps : List Bool) (as : List α) :
    (takeEnds steps as)[n]? = steps[n]?.map fun far => (along far (leaveEnds (steps.take n) as)).head? := by
  induction steps generalizing n as with
  | nil => rfl
  | cons far steps ih =>
      rw [takeEnds_cons]
      cases n with
      | zero => rfl
      | succ n => exact ih n _

theorem gotFrom_cons (far step : Bool) (steps : List Bool) (a? : Option α) (got : List (Option α)) :
    gotFrom far (step :: steps) (a? :: got) = (if step = far then a? else none).toList ++ gotFrom far steps got := by
  unfold gotFrom
  rw [List.zip_cons_cons, List.filterMap_cons]
  cases (if step = far then a? else none) <;> rfl

theorem head?_append_tail (as : List α) : as.head?.toList ++ as.tail = as := by
  cases as <;> rfl

/-- **What was got and what was left make up the list**, from one end to the other. -/
theorem takeEnds_parts (steps : List Bool) (as : List α) :
    gotFrom false steps (takeEnds steps as) ++ leaveEnds steps as ++ (gotFrom true steps (takeEnds steps as)).reverse =
      as := by
  induction steps generalizing as with
  | nil => simp [gotFrom, leaveEnds]
  | cons far steps ih =>
      have hrest := ih (along far (along far as).tail)
      rw [takeEnds_cons, leaveEnds, gotFrom_cons, gotFrom_cons]
      -- the step adds one element to what its end got, in front of what the later steps got
      cases far with
      | false =>
          rw [if_pos rfl, if_neg (by simp), Option.toList_none, List.nil_append, List.append_assoc, List.append_assoc,
            ← List.append_assoc (gotFrom _ _ _), hrest]
          exact head?_append_tail as
      | true =>
          rw [if_neg (by simp), if_pos rfl, Option.toList_none, List.nil_append, List.reverse_append, ← List.append_assoc,
            hrest, along_true (along true as).tail, ← List.reverse_append, head?_append_tail, along_true,
            List.reverse_reverse]

/-- What was got and what was left are the elements of the list. -/
theorem takeEnds_perm (steps : List Bool) (as : List α) :
    ((takeEnds steps as).reduceOption ++ leaveEnds steps as).Perm as := by
  induction steps generalizing as with
  | nil => exact List.Perm.refl as
  | cons far steps ih =>
      have hrest := ih (along far (along far as).tail)
      rw [takeEnds_cons, leaveEnds]
      have hcons (a? : Option α) (l : List (Option α)) : (a? :: l).reduceOption = a?.toList ++ l.reduceOption := by
        cases a? <;> rfl
      rw [hcons, List.append_assoc]
      refine (hrest.append_left _).trans (((perm_along far _).append_left _).trans ?_)
      rw [head?_append_tail]
      exact perm_along far as

/-- What some steps got when they took a listing from both of its ends. -/
structure FromEnds (rows : List (Bytes × V)) (steps : List Bool) (got : List (Option (Bytes × V))) : Prop where
  length : got.length = steps.length
  /-- What the near end got is how the listing begins: the first answer is the first row, and so on. -/
  near : gotFrom false steps got <+: rows
  /-- What the far end got is how the listing ends, the last row first. -/
  far : gotFrom true steps got <+: rows.reverse
  once : (got.reduceOption.map Prod.fst).Nodup
  /-- A step gets nothing just if the steps before it got all rows. -/
  nothing_iff : ∀ n < steps.length, got[n]? = some none ↔ (got.take n).reduceOption.Perm rows
  stays : ∀ n k, n ≤ k → k < steps.length → got[n]? = some none → got[k]? = some none

/-- **A listing whose keys are distinct comes away from both of its ends.** -/
theorem fromEnds_takeEnds {rows : List (Bytes × V)} (hrows : (rows.map Prod.fst).Nodup) (steps : List Bool) :
    FromEnds rows steps (takeEnds steps rows) := by
  -- a step gets nothing just if nothing was left by those before it
  have hnone : ∀ n < steps.length, (takeEnds steps rows)[n]? = some none ↔ leaveEnds (steps.take n) rows = [] := by
    intro n hn
    rw [getElem?_takeEnds, List.getElem?_eq_getElem hn, Option.map_some, Option.some.injEq, List.head?_eq_none_iff,
      along_eq_nil_iff]
  have hparts := takeEnds_parts steps rows
  refine ⟨length_takeEnds steps rows, ?_, ?_, ?_, fun n hn => ?_, fun n k hnk hk hn => ?_⟩
  · exact ⟨_, (List.append_assoc _ _ _).symm.trans hparts⟩
  · have hback := congrArg List.reverse hparts
    rw [List.reverse_append, List.reverse_reverse] at hback
    exact ⟨_, hback⟩
  · have hnd := ((takeEnds_perm steps rows).map Prod.fst).nodup_iff.2 hrows
    rw [List.map_append] at hnd
    exact (List.nodup_append'.1 hnd).1
  · have hperm := takeEnds_perm (steps.take n) rows
    rw [hnone n hn, take_takeEnds]
    constructor
    · intro hleft
      rwa [hleft, List.append_nil] at hperm
    · intro hall
      have hlength := hperm.length_eq
      rw [List.length_append, hall.length_eq] at hlength
      exact List.length_eq_zero_iff.1 (by omega)
  · have hsplit : steps.take k = steps.take n ++ (steps.take k).drop n := by
      have htake := (List.take_append_drop n (steps.take k)).symm
      rwa [List.take_take, Nat.min_eq_left hnk] at htake
    rw [hnone k hk, hsplit, leaveEnds_append, (hnone n (by omega)).1 hn, leaveEnds_nil]

namespace Walk

/-- The walk with nothing left to meet. -/
def spent (w : Walk V) : Walk V := { w with span := { w.span with going := false } }

/-- Take steps of a walk as in `drive`, only that a step that meets nothing uses up the walk. -/
def driveOut : List Bool → Walk V → Except Fault (List (Option (Leaf V)))
  | [], _ => .ok []
  | far :: steps, w => do
    match ← w.nextFrom far with
    | none => return none :: (← driveOut steps w.spent)
    | some (leaf, w) => return some leaf :: (← driveOut steps w)

/-- However a walk is driven, its listing comes away from its two ends. -/
structure Gives (w : Walk V) (rows : List (Bytes × V)) : Prop where
  listed : List.map Leaf.item <$> w.toList = .ok rows
  driven : ∀ steps, ∃ met, w.drive steps = .ok met ∧ FromEnds rows steps (met.map (Option.map Leaf.item))
  /-- It makes no difference whether a step that meets nothing uses up the walk. -/
  usedUp : ∀ steps, w.driveOut steps = w.drive steps

variable {w : Walk V} {es : List (Entry V)}

theorem spent_covers (w : Walk V) : w.spent.Covers [] :=
  ⟨⟨none, none, trivial⟩, List.nodup_nil, rfl, fun hne => absurd rfl hne⟩

/-- A walk that keeps nothing of its entries meets nothing. -/
theorem Covers.drive_nothing (h : w.Covers es) (hkept : w.kept es = []) (steps : List Bool) :
    w.drive steps = .ok (List.replicate steps.length none) := by
  induction steps with
  | nil => rfl
  | cons far steps ih =>
      have hstep := h.nextFrom far
      rw [hkept, along_eq_nil_iff.2 rfl] at hstep
      rw [Walk.drive, hstep]
      change (w.drive steps >>= fun met => .ok (none :: met)) = _
      rw [ih]
      rfl

theorem Covers.driveOut_eq (h : w.Covers es) (steps : List Bool) : w.driveOut steps = w.drive steps := by
  induction steps generalizing w es with
  | nil => rfl
  | cons far steps ih =>
      have hstep := h.nextFrom far
      rw [driveOut, Walk.drive]
      cases hkept : along far (w.kept es) with
      | nil =>
          rw [hkept] at hstep
          rw [hstep]
          dsimp only [bind, Except.bind]
          -- both walks go on to meet nothing
          rw [ih w.spent_covers, w.spent_covers.drive_nothing w.spent.kept_nil,
            h.drive_nothing (along_eq_nil_iff.1 hkept)]
      | cons e rest =>
          rw [hkept] at hstep
          obtain ⟨leaf, span, es', hmeet, -, hcovers, -⟩ := hstep
          rw [hmeet]
          dsimp only [bind, Except.bind]
          rw [ih hcovers]

/-- **A walk over entries with distinct keys gives what it keeps of them.** -/
theorem Covers.gives {rows : List (Bytes × V)} (h : w.Covers es) (hrows : (w.kept es).map Entry.item = rows)
    (hkeys : (rows.map Prod.fst).Nodup) : w.Gives rows where
  listed := by rw [h.listed, hrows]
  driven := by
    intro steps
    obtain ⟨met, hdrive, hmet⟩ := h.drive steps
    rw [← takeEnds_map, hrows] at hmet
    exact ⟨met, hdrive, hmet ▸ fromEnds_takeEnds hkeys steps⟩
  usedUp := h.driveOut_eq

end Walk

end OrderedStore
