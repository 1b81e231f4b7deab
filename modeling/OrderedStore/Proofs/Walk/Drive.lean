import Mathlib.Tactic
import OrderedStore.Proofs.Acts
import OrderedStore.Proofs.Walk.Covers
import OrderedStore.Walk.Cursor

/-!
# Walks and cursors on the move

A walk may be taken from both ends in turn, and a cursor may go back and forth. A walk that is driven so meets
what a list gives away that is taken from both ends, until nothing is left. A cursor that is driven goes the way of a
place among the entries: the links of a leaf lead to the entries next to it, and the entries at the ends are known by
their numbers, since no other entry has them.
-/

namespace OrderedStore

variable {V : Type}

/-- Take elements away from a list, from its back where a step says `true`. Steps after the last element take
nothing. -/
def takeEnds {α : Type} : List Bool → List α → List (Option α)
  | [], _ => []
  | far :: steps, as =>
    match along far as with
    | [] => none :: takeEnds steps as
    | a :: rest => some a :: takeEnds steps (along far rest)

namespace Walk

/-- The next leaf from the near end of a walk or from its far end. -/
def nextFrom (far : Bool) (w : Walk V) : Except Fault (Option (Leaf V × Walk V)) :=
  if far then w.nextBack else w.next

/-- Take steps of a walk, from its far end where a step says `true`. A step that meets nothing leaves the walk
as it is. -/
def drive : List Bool → Walk V → Except Fault (List (Option (Leaf V)))
  | [], _ => .ok []
  | far :: steps, w => do
    match ← w.nextFrom far with
    | none => return none :: (← drive steps w)
    | some (leaf, w) => return some leaf :: (← drive steps w)

variable {w : Walk V} {es : List (Entry V)}

/-- What a walk has left to give, in its direction. -/
def kept (w : Walk V) (es : List (Entry V)) : List (Entry V) :=
  (along w.descending es).filter fun e => w.keeps e.key

theorem kept_nil (w : Walk V) : w.kept [] = [] := by
  unfold kept
  rw [along_eq_nil_iff.2 rfl, List.filter_nil]

theorem along_kept (w : Walk V) (es : List (Entry V)) (far : Bool) :
    along far (w.kept es) = (along (w.descending != far) es).filter fun e => w.keeps e.key := by
  unfold kept
  cases far <;> cases w.descending <;> simp [List.filter_reverse]

theorem Reads.kept {d : Bool} (h : w.Reads d es) : w.kept es = along d es := by
  unfold Walk.kept
  rw [h.kept_eq, h.direction]

/-- A walk from its other end gives the same, the other way round. -/
theorem kept_reverse (w : Walk V) (es : List (Entry V)) : w.reverse.kept es = (w.kept es).reverse := by
  rw [← along_true (w.kept es), along_kept]
  unfold Walk.kept reverse
  cases w.descending <;> rfl

theorem Covers.listed (h : w.Covers es) : List.map Leaf.item <$> w.toList = .ok ((w.kept es).map Entry.item) := by
  obtain ⟨leaves, hlist, hleaves⟩ := h.toList
  rw [hlist]
  exact congrArg Except.ok hleaves

/-- A step from either end of a walk in its direction is a step from an end of the chain. -/
theorem nextFrom_eq (w : Walk V) (far : Bool) : w.nextFrom far = w.seek (w.descending != far) w.fuel := by
  unfold nextFrom next nextBack
  cases far <;> cases w.descending <;> rfl

/-- **A step from either end** takes away the kept entry at that end, or finds that there is none. -/
theorem Covers.nextFrom (h : w.Covers es) (far : Bool) :
    match along far (w.kept es) with
    | [] => w.nextFrom far = .ok none
    | e :: rest => ∃ leaf span es', w.nextFrom far = .ok (some (leaf, { w with span })) ∧ leaf.item = e.item ∧
        Covers { w with span } es' ∧ w.kept es' = along far rest := by
  rw [w.nextFrom_eq, w.along_kept]
  cases hkept : (along (w.descending != far) es).filter fun e => w.keeps e.key with
  | nil =>
      have hout := List.filter_eq_nil_iff.1 hkept
      exact h.seek_none h.length_lt_fuel fun x hx => Bool.eq_false_of_not_eq_true (hout x (mem_along.2 hx))
  | cons e rest =>
      obtain ⟨skipped, left, hd, hout, hkeep, hrest⟩ := List.filter_eq_cons_iff.1 hkept
      obtain ⟨leaf, span, hseek, hitem, hcovers⟩ :=
        h.seek_some h.length_lt_fuel hd (fun x hx => Bool.eq_false_of_not_eq_true (hout x hx)) hkeep
      refine ⟨leaf, span, _, hseek, hitem, hcovers, ?_⟩
      -- what is left of the chain, seen from the end of the step, has the rest to give
      have hleft := w.along_kept (along (w.descending != far) left) far
      rw [along_along, hrest] at hleft
      rw [← hleft, along_along]

/-- **A driven walk** meets what it would give away as a list. -/
theorem Covers.drive (h : w.Covers es) (steps : List Bool) :
    ∃ met, w.drive steps = .ok met ∧
      met.map (Option.map Leaf.item) = (takeEnds steps (w.kept es)).map (Option.map Entry.item) := by
  induction steps generalizing w es with
  | nil => exact ⟨[], rfl, rfl⟩
  | cons far steps ih =>
      have hstep := h.nextFrom far
      rw [Walk.drive, takeEnds]
      cases hkept : along far (w.kept es) with
      | nil =>
          rw [hkept] at hstep
          obtain ⟨met, hdrive, hmet⟩ := ih h
          refine ⟨none :: met, ?_, congrArg (none :: ·) hmet⟩
          rw [hstep]
          dsimp only [bind, Except.bind]
          rw [hdrive]
          rfl
      | cons e rest =>
          rw [hkept] at hstep
          obtain ⟨leaf, span, es', hmeet, hitem, hcovers, hleft⟩ := hstep
          obtain ⟨met, hdrive, hmet⟩ := ih hcovers
          refine ⟨some leaf :: met, ?_, ?_⟩
          · rw [hmeet]
            dsimp only [bind, Except.bind]
            rw [hdrive]
            rfl
          · rw [List.map_cons, List.map_cons, hmet, Option.map_some, Option.map_some, hitem, ← hleft]
            rfl

end Walk

namespace Cursor

/-- A move of a cursor: none at all, or a step either way. -/
inductive Move
  | stay
  | next
  | prev

/-- Make a move, and look at the leaf reached. -/
def move (c : Cursor V) : Move → Except Fault (Option (Leaf V) × Cursor V)
  | .stay => return (← c.current, c)
  | .next => c.next
  | .prev => c.prev

/-- Make moves one after the other. -/
def drive : List Move → Cursor V → Except Fault (List (Option (Leaf V)))
  | [], _ => .ok []
  | m :: moves, c => do
    let (met, c) ← c.move m
    return met :: (← drive moves c)

/-- Where a move leads from a place among so many rows. A step beyond either end leads off them, and nothing leads
back. -/
def Move.lead (count : Nat) : Move → Option Nat → Option Nat
  | _, none => none
  | .stay, some i => some i
  | .next, some i => if i + 1 < count then some (i + 1) else none
  | .prev, some 0 => none
  | .prev, some (i + 1) => some i

@[simp] theorem Move.lead_none (count : Nat) (m : Move) : m.lead count none = none := by cases m <;> rfl

@[simp] theorem Move.lead_stay (count : Nat) (place : Option Nat) : Move.stay.lead count place = place := by
  cases place <;> rfl

/-- The row at a place, and nothing off the rows. -/
def rowAt {α : Type} (rows : List α) (place : Option Nat) : Option α := place.bind (rows[·]?)

/-- The rows met by making moves one after the other from a place. -/
def visit {α : Type} (rows : List α) : List Move → Option Nat → List (Option α)
  | [], _ => []
  | m :: moves, place => rowAt rows (m.lead rows.length place) :: visit rows moves (m.lead rows.length place)

theorem rowAt_map {α β : Type} (f : α → β) (rows : List α) (place : Option Nat) :
    rowAt (rows.map f) place = (rowAt rows place).map f := by
  cases place with
  | none => rfl
  | some i => exact List.getElem?_map

theorem visit_map {α β : Type} (f : α → β) (rows : List α) (moves : List Move) (place : Option Nat) :
    visit (rows.map f) moves place = (visit rows moves place).map (Option.map f) := by
  induction moves generalizing place with
  | nil => rfl
  | cons m moves ih => rw [visit, visit, List.length_map, rowAt_map, ih, List.map_cons]

/-- No move leads outside the rows. -/
theorem Move.lead_lt {count : Nat} (m : Move) {place : Option Nat} (hplace : ∀ i ∈ place, i < count) :
    ∀ i ∈ m.lead count place, i < count := by
  intro i hi
  cases place with
  | none =>
      rw [lead_none] at hi
      cases hi
  | some j =>
      have hj := hplace j rfl
      cases m with
      | stay =>
          obtain rfl := Option.some.inj hi
          exact hj
      | next =>
          rw [lead, Option.mem_ite_none_right] at hi
          obtain ⟨hlt, hi⟩ := hi
          obtain rfl := Option.some.inj hi
          exact hlt
      | prev =>
          cases j with
          | zero => cases hi
          | succ j =>
              obtain rfl := Option.some.inj hi
              omega

/-- Off the rows there is nothing to be met any more. -/
theorem visit_none {α : Type} (rows : List α) (moves : List Move) : ∀ met ∈ visit rows moves none, met = none := by
  induction moves with
  | nil => exact fun _ hmet => absurd hmet List.not_mem_nil
  | cons m moves ih =>
      rw [visit, Move.lead_none]
      exact List.forall_mem_cons.2 ⟨rfl, ih⟩

/-- Once nothing is met, nothing is met any more. -/
theorem visit_pairwise {α : Type} (rows : List α) (moves : List Move) {place : Option Nat}
    (hplace : ∀ i ∈ place, i < rows.length) :
    (visit rows moves place).Pairwise fun met later => met = none → later = none := by
  induction moves generalizing place with
  | nil => exact List.Pairwise.nil
  | cons m moves ih =>
      have hlead := m.lead_lt hplace
      refine List.pairwise_cons.2 ⟨fun later hlater hnone => ?_, ih hlead⟩
      cases hto : m.lead rows.length place with
      | none => exact visit_none rows moves later (hto ▸ hlater)
      | some i =>
          rw [hto] at hnone
          exact absurd (hlead i hto) (Nat.not_lt.2 (List.getElem?_eq_none_iff.1 hnone))

/-- The cursor stands at a place among these entries, which form one chain in its pool, or off them. -/
structure Stands (c : Cursor V) (es : List (Entry V)) (place : Option Nat) : Prop where
  linked : c.leaves.Linked es
  first : c.first = Entry.first es
  last : c.last = Entry.last es
  position : c.position = (rowAt es place).map Entry.id
  inside : ∀ i ∈ place, i < es.length

/-- The step comes to a place, and shows the entry there. -/
def Arrives (es : List (Entry V)) (place : Option Nat) (step : Except Fault (Option (Leaf V) × Cursor V)) : Prop :=
  ∃ met c', step = .ok (met, c') ∧ c'.Stands es place ∧ met.map Leaf.item = (rowAt es place).map Entry.item

variable {c : Cursor V} {es : List (Entry V)} {place : Option Nat}

/-- A cursor is set at a place by the link to its entry. -/
theorem Stands.at (h : c.Stands es place) {place' : Option Nat} {position : Link}
    (hposition : position = (rowAt es place').map Entry.id) (hinside : ∀ i ∈ place', i < es.length) :
    Stands { c with position } es place' := ⟨h.linked, h.first, h.last, hposition, hinside⟩

/-- The entry that the cursor stands at, and what is on either side of it. -/
theorem Stands.entry {i : Nat} (h : c.Stands es (some i)) :
    ∃ xs e ys, es = xs ++ e :: ys ∧ i = xs.length ∧ c.position = some e.id := by
  have hi := h.inside i rfl
  refine ⟨es.take i, es[i], es.drop (i + 1), ?_, ?_, ?_⟩
  · rw [← List.drop_eq_getElem_cons hi, List.take_append_drop]
  · rw [List.length_take_of_le hi.le]
  · rw [h.position, rowAt, Option.bind_some, List.getElem?_eq_getElem hi, Option.map_some]

theorem Stands.position_none (h : c.Stands es none) : c.position = none := h.position

/-- The entry at the place of the cursor is what it shows. -/
theorem Stands.current (h : c.Stands es place) :
    ∃ met, c.current = .ok met ∧ met.map Leaf.item = (rowAt es place).map Entry.item := by
  unfold Cursor.current
  cases place with
  | none =>
      rw [if_pos h.position_none]
      exact ⟨none, rfl, rfl⟩
  | some i =>
      obtain ⟨xs, e, ys, rfl, rfl, hposition⟩ := h.entry
      rw [hposition, if_neg (Option.some_ne_none _), Pool.get_ok h.linked.leaf?_mid]
      refine ⟨some _, rfl, ?_⟩
      rw [rowAt, Option.bind_some, List.getElem?_append_right le_rfl, Nat.sub_self]
      rfl

theorem Stands.arrive (h : c.Stands es place) (position : Link) {place' : Option Nat}
    (hposition : position = (rowAt es place').map Entry.id) (hinside : ∀ i ∈ place', i < es.length) :
    Arrives es place' (do return (← Cursor.current { c with position }, { c with position })) := by
  obtain ⟨met, hmet, hitem⟩ := (h.at hposition hinside).current
  exact ⟨met, { c with position }, by rw [hmet]; rfl, h.at hposition hinside, hitem⟩

theorem Stands.next (h : c.Stands es place) : Arrives es (Move.next.lead es.length place) c.next := by
  have hinside := Move.next.lead_lt h.inside
  unfold Cursor.next
  cases place with
  | none =>
      rw [if_pos h.position_none]
      exact ⟨none, c, rfl, h, rfl⟩
  | some i =>
      obtain ⟨xs, e, ys, rfl, rfl, hposition⟩ := h.entry
      have hend : some e.id = c.last ↔ ys = [] := by
        rw [h.last, eq_comm, Pool.last_mid_eq_iff h.linked.nodup]
      rw [hposition, if_neg (Option.some_ne_none _)]
      cases ys with
      | nil =>
          have hlead : Move.next.lead (xs ++ [e]).length (some xs.length) = none := by simp [Move.lead]
          rw [hlead] at hinside ⊢
          rw [if_pos (hend.2 rfl)]
          exact h.arrive none rfl hinside
      | cons y ys =>
          have hlead : Move.next.lead (xs ++ e :: y :: ys).length (some xs.length) = some (xs.length + 1) := by
            simp [Move.lead]
          rw [hlead] at hinside ⊢
          rw [if_neg (mt hend.1 (List.cons_ne_nil y ys)), Pool.nextOf_ok h.linked.leaf?_mid]
          exact h.arrive (some y.id) (by simp [rowAt]) hinside

theorem Stands.prev (h : c.Stands es place) : Arrives es (Move.prev.lead es.length place) c.prev := by
  have hinside := Move.prev.lead_lt h.inside
  unfold Cursor.prev
  cases place with
  | none =>
      rw [if_pos h.position_none]
      exact ⟨none, c, rfl, h, rfl⟩
  | some i =>
      obtain ⟨xs, e, ys, rfl, rfl, hposition⟩ := h.entry
      have hend : some e.id = c.first ↔ xs = [] := by
        rw [h.first, eq_comm, Pool.first_mid_eq_iff h.linked.nodup]
      rw [hposition, if_neg (Option.some_ne_none _)]
      rcases List.eq_nil_or_concat' xs with rfl | ⟨xs, x, rfl⟩
      · rw [if_pos (hend.2 rfl)]
        exact h.arrive none rfl hinside
      · have hlead : Move.prev.lead (xs ++ [x] ++ e :: ys).length (some (xs ++ [x]).length) = some xs.length := by
          simp [Move.lead]
        rw [hlead] at hinside ⊢
        rw [if_neg (mt hend.1 (by simp)), Pool.prevOf_ok h.linked.leaf?_mid]
        exact h.arrive (Entry.last (xs ++ [x])) (by simp [rowAt]) hinside

/-- **A move takes a cursor to the place that it leads to**, and shows the entry there. -/
theorem Stands.move (h : c.Stands es place) (m : Move) : Arrives es (m.lead es.length place) (c.move m) := by
  cases m with
  | stay =>
      obtain ⟨met, hmet, hitem⟩ := h.current
      rw [Move.lead_stay, Cursor.move, hmet]
      exact ⟨met, c, rfl, h, hitem⟩
  | next => exact h.next
  | prev => exact h.prev

/-- **Moves one after the other** meet what they meet among the entries. -/
theorem Stands.drive (h : c.Stands es place) (moves : List Move) :
    ∃ met, c.drive moves = .ok met ∧
      met.map (Option.map Leaf.item) = (visit es moves place).map (Option.map Entry.item) := by
  induction moves generalizing c place with
  | nil => exact ⟨[], rfl, rfl⟩
  | cons m moves ih =>
      obtain ⟨met, c', hmove, h', hitem⟩ := h.move m
      obtain ⟨mets, hdrive, hmets⟩ := ih h'
      refine ⟨met :: mets, ?_, ?_⟩
      · rw [Cursor.drive, hmove]
        dsimp only [bind, Except.bind]
        rw [hdrive]
        rfl
      · rw [visit, List.map_cons, List.map_cons, hitem, hmets]

end Cursor

end OrderedStore
