import OrderedStore.Fault

/-!
# Traces

A trace is what a walk meets, step by step: items, and then either the end or a fault. Reading a trace
is lazy in the sense that counts: a fault that lies beyond what was asked for is never met. So a
reader that takes three items of a trace gets them even if the fourth step would fail.
-/

namespace OrderedStore

/-- Items in the order in which they are met, then the end or a fault. -/
inductive Trace (α : Type)
  | done
  | fault (f : Fault)
  | item (a : α) (rest : Trace α)

namespace Trace

variable {α β : Type}

/-- All items, if the trace has an end. -/
def toList : Trace α → Except Fault (List α)
  | done => .ok []
  | fault f => .error f
  | item a rest => return a :: (← rest.toList)

/-- The trace of a list. -/
def ofList : List α → Trace α
  | [] => done
  | a :: as => item a (ofList as)

/-- The first `n` items. What follows them is not looked at. -/
def take : Nat → Trace α → Trace α
  | 0, _ => done
  | _ + 1, done => done
  | _ + 1, fault f => fault f
  | n + 1, item a rest => item a (rest.take n)

/-- What follows the first `n` items. -/
def drop : Nat → Trace α → Trace α
  | 0, t => t
  | _ + 1, done => done
  | _ + 1, fault f => fault f
  | n + 1, item _ rest => rest.drop n

/-- The items before the first that fails the test. -/
def takeWhile (p : α → Bool) : Trace α → Trace α
  | done => done
  | fault f => fault f
  | item a rest => if p a then item a (rest.takeWhile p) else done

/-- The trace from the first item on that fails the test. -/
def dropWhile (p : α → Bool) : Trace α → Trace α
  | done => done
  | fault f => fault f
  | item a rest => if p a then rest.dropWhile p else item a rest

/-- Change every item. -/
def map (f : α → β) : Trace α → Trace β
  | done => done
  | fault f => fault f
  | item a rest => item (f a) (rest.map f)

/-- Work on every item as it is met. The work on one item comes before the step to the next. -/
def mapM (f : α → Except Fault β) : Trace α → Except Fault (List β)
  | done => .ok []
  | fault e => .error e
  | item a rest => do
    let b ← f a
    return b :: (← rest.mapM f)

/-- What is met first: an item with the trace after it, or nothing. -/
def next? : Trace α → Except Fault (Option (α × Trace α))
  | done => .ok none
  | fault f => .error f
  | item a rest => .ok (some (a, rest))

@[simp] theorem toList_ofList (as : List α) : (ofList as).toList = .ok as := by
  induction as with
  | nil => rfl
  | cons a as ih => simp [ofList, toList, ih, bind, Except.bind, pure, Except.pure]

@[simp] theorem take_ofList (n : Nat) (as : List α) : (ofList as).take n = ofList (as.take n) := by
  induction as generalizing n with
  | nil => cases n <;> rfl
  | cons a as ih => cases n <;> simp [ofList, take, ih]

@[simp] theorem drop_ofList (n : Nat) (as : List α) : (ofList as).drop n = ofList (as.drop n) := by
  induction as generalizing n with
  | nil => cases n <;> rfl
  | cons a as ih => cases n <;> simp [ofList, drop, ih]

@[simp] theorem takeWhile_ofList (p : α → Bool) (as : List α) :
    (ofList as).takeWhile p = ofList (as.takeWhile p) := by
  induction as with
  | nil => rfl
  | cons a as ih => by_cases h : p a <;> simp [ofList, takeWhile, h, ih]

@[simp] theorem map_ofList (f : α → β) (as : List α) : (ofList as).map f = ofList (as.map f) := by
  induction as with
  | nil => rfl
  | cons a as ih => simp [ofList, map, ih]

@[simp] theorem dropWhile_ofList (p : α → Bool) (as : List α) :
    (ofList as).dropWhile p = ofList (as.dropWhile p) := by
  induction as with
  | nil => rfl
  | cons a as ih => by_cases h : p a <;> simp [ofList, dropWhile, h, ih]

/-- Work on the trace of a list is work on the list. -/
theorem ofList_mapM (f : α → Except Fault β) (as : List α) : (ofList as).mapM f = as.mapM f := by
  induction as with
  | nil => rfl
  | cons a as ih =>
      rw [ofList, mapM, ih, List.mapM_cons]

/-- Work that succeeds on every item of a list. -/
theorem mapM_ofList {f : α → Except Fault β} {g : α → β} {as : List α} (h : ∀ a ∈ as, f a = .ok (g a)) :
    (ofList as).mapM f = .ok (as.map g) := by
  induction as with
  | nil => rfl
  | cons a as ih =>
      have hrest := ih fun b hb => h b (List.mem_cons_of_mem a hb)
      rw [ofList, mapM, h a List.mem_cons_self, hrest]
      rfl

end Trace

end OrderedStore
