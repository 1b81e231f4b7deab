import Mathlib.Tactic
import OrderedStore.Proofs.Capacity
import OrderedStore.Proofs.Trie.Cutting

/-!
# No run meets a broken invariant

Every fault but one says that an invariant is broken: a link that leads nowhere, a slot freed twice, a member
without its bucket, a position past the end. No run of calls and questions on maps, scored sets or stores ends in
one of these, whatever is kept, copied, read and rolled back on the way. The one fault that is left is that of a
pool that has handed out every slot number, and a run that comes to no such pool ends without a fault.
-/

namespace OrderedStore

open Edit

/-! ## Positions -/

/-- Every position that a descent from a node computes is in range, for look-ups and for writes. -/
structure Node.InRange (n : Node) : Prop where
  find? : ∀ rest, n.checkedFind? rest = .ok (n.find? rest)
  neighbors : ∀ rest seen, n.checkedNeighbors rest seen = .ok (n.neighbors rest seen)
  covering? : ∀ rest, n.checkedCovering? rest = .ok (n.covering? rest)
  longest? : ∀ rest seen, n.checkedLongest? rest seen = .ok (n.longest? rest seen)
  insert : ∀ rest id, n.checkedInsert rest id = n.insert rest id
  erase : ∀ rest, n.checkedErase rest = n.erase rest
  eraseUnder : ∀ rest, n.checkedEraseUnder rest = n.eraseUnder rest

/-- **No descent computes a position out of range**, not even from a damaged node. -/
theorem Node.inRange (n : Node) : n.InRange where
  find? := n.checkedFind?_eq
  neighbors := n.checkedNeighbors_eq
  covering? := n.checkedCovering?_eq
  longest? := n.checkedLongest?_eq
  insert := n.checkedInsert_eq
  erase := n.checkedErase_eq
  eraseUnder := n.checkedEraseUnder_eq

/-! ## Maps and scored sets -/

namespace OrderedMap

variable {V : Type} {limit : Nat}

theorem perform_comes (m : OrderedMap V) (call : Call V) (now : Stamp) (h : ∃ s, Represents limit m s) :
    (m.perform call).Comes now (m.FindsFull call) fun x => ∃ s, Represents limit x.2 s := by
  obtain ⟨s, hs⟩ := h
  exact (hs.meets call).comes (hs.answer_exhausted call) now

/-- The versions of a map after acts on an empty one. -/
def run (limit : Nat) (stamp : Stamp) (acts : List (Act (Call V) (Query V))) : Edit (List (OrderedMap V)) :=
  actAll perform ask [empty V stamp limit] acts

/-- A run on a map that comes to an insertion into a version whose pool is full. -/
def RunsFull (limit : Nat) (stamp : Stamp) (acts : List (Act (Call V) (Query V))) (now : Stamp) : Prop :=
  OrderedStore.RunsFull perform ask (fun m call _ => m.FindsFull call) [empty V stamp limit] acts now

/-- **A run on a map ends well**, however many versions of it are kept and read, unless it finds a pool full. -/
theorem run_endsUnless (limit : Nat) (stamp : Stamp) (acts : List (Act (Call V) (Query V))) (now : Stamp) :
    EndsUnless (RunsFull limit stamp acts now) ((run limit stamp acts).run now) := by
  refine (actAll_comes (P := fun m => ∃ s, Represents limit m s) perform_comes ?_ ?_ acts now).endsUnless
  · intro m q h
    obtain ⟨s, hs⟩ := h
    exact hs.ask_succeeds q
  · intro m hm
    rw [List.mem_singleton.1 hm]
    exact ⟨_, represents_empty stamp limit⟩

end OrderedMap

namespace ScoredSet

variable {V : Type} {limit : Nat}

theorem perform_comes (z : ScoredSet V) (call : Call V) (now : Stamp) (h : ∃ s, Represents limit z s) :
    (z.perform call).Comes now (z.FindsFull call now) fun x => ∃ s, Represents limit x.2 s := by
  obtain ⟨s, hs⟩ := h
  exact (hs.meets call).comes (hs.answer_exhausted call now) now

/-- The versions of a scored set after acts on an empty one. -/
def run (limit : Nat) (acts : List (Act (Call V) Query)) : Edit (List (ScoredSet V)) := do
  actAll perform ask [← empty V limit] acts

/-- A run on a scored set that comes to a member for which a version has no slot left. -/
def RunsFull (limit : Nat) (acts : List (Act (Call V) Query)) (now : Stamp) : Prop :=
  ∃ z next, (empty V limit).run now = .ok (z, next) ∧ OrderedStore.RunsFull perform ask FindsFull [z] acts next

/-- **A run on a scored set ends well**, unless it finds a pool full. -/
theorem run_endsUnless (limit : Nat) (acts : List (Act (Call V) Query)) (now : Stamp) :
    EndsUnless (RunsFull limit acts now) ((run limit acts).run now) := by
  refine Comes.endsUnless (Comes.bind (Q := fun zs => ∀ z ∈ zs, ∃ s, Represents limit z s)
    (.of_yields (Represents.empty_yields limit)) fun z next hrun hz => ?_)
  refine (actAll_comes perform_comes ?_ ?_ acts next).weaken ?_
  · intro z q h
    obtain ⟨s, hs⟩ := h
    exact hs.ask_succeeds q
  · intro z' hz'
    rw [List.mem_singleton.1 hz']
    exact ⟨_, hz⟩
  · intro hfull
    exact ⟨z, next, hrun, hfull⟩

end ScoredSet

/-! ## Stores -/

namespace Store

variable {ε α : Type} {config : Config} {c : Contents} {s : Store}

/-- A question to a store: to what the writer has, or to what a snapshot taken now has. -/
inductive Query
  | working (q : Keyspace.Query)
  | snapshot (q : Keyspace.Query)

/-- The answer to a question. -/
def Query.Answer : Query → Type
  | working q => q.Answer
  | snapshot q => q.Answer

/-- What a store answers. -/
def ask (s : Store) : (q : Query) → Except Fault q.Answer
  | .working q => s.working.ask q
  | .snapshot q => s.snapshot.ask q

theorem Represents.ask_succeeds (h : s.Represents config c) (q : Query) : Succeeds (s.ask q) := by
  cases q with
  | working q => exact h.working.ask_succeeds q
  | snapshot q =>
      have hsettled : s.working = s.published := h.settled
      show Succeeds (s.published.ask q)
      rw [← hsettled]
      exact h.working.ask_succeeds q

/-- The body of a transaction, which may ask the writer's state anything after any write, by induction on what it
still does. -/
theorem program_comes (script : Script Keyspace.Query.Answer ε α) {t : Transaction} (h : t.Represents config c)
    (now : Stamp) :
    ((script.program Keyspace.ask).run t).Comes now (script.FindsFull Keyspace.ask t now)
      fun x => ∃ c, x.2.Represents config c := by
  induction script generalizing t c now with
  | done answer => exact Comes.pure ⟨c, h⟩
  | fail reason => exact Comes.pure ⟨c, h⟩
  | ask q next ih =>
      obtain ⟨answer, hanswer⟩ := Keyspace.Represents.ask_succeeds h q
      rw [Script.program, Program.run, hanswer]
      exact (ih answer h now).weaken fun hfull => ⟨answer, hanswer, hfull⟩
  | write cmd next ih =>
      rw [Script.program, Program.run]
      have hcomes := (h.perform_meets cmd).comes (h.answer_exhausted cmd now) now
      refine Comes.bind (hcomes.weaken Or.inl) fun x later hrun hx => ?_
      obtain ⟨c', ht'⟩ := hx
      exact (ih x.1 ht' later).weaken fun hfull => Or.inr ⟨x.1, x.2, later, hrun, hfull⟩

theorem Represents.transaction_comes (h : s.Represents config c) (script : Script Keyspace.Query.Answer ε α)
    (now : Stamp) :
    Comes (liftM (s.transaction (script.program Keyspace.ask))) now
      (script.FindsFull Keyspace.ask { space := s.working } s.supply) fun x => ∃ c, x.2.Represents config c := by
  rcases program_comes script (t := { space := s.working }) h.working s.supply with
    ⟨ended, supply, hrun, c', ht⟩ | ⟨hrun, hfull⟩
  · obtain ⟨result, t⟩ := ended
    rw [transaction_of_run hrun]
    -- a transaction that gave up leaves the store that it began with
    cases hresult : Except.isOk result with
    | true => exact Comes.pure ⟨c', h.finish ht (kept_of_run hrun)⟩
    | false => exact Comes.pure ⟨c, h.settled.rollback_eq.symm ▸ h⟩
  · rw [transaction_of_fault hrun]
    exact Or.inr ⟨rfl, hfull⟩

theorem operate_comes (s : Store) (op : Operation Keyspace.Query.Answer ε α) (now : Stamp)
    (h : ∃ c, s.Represents config c) :
    (s.operate Keyspace.ask op).Comes now (s.FindsFull Keyspace.ask op) fun x => ∃ c, x.2.Represents config c := by
  obtain ⟨c, hs⟩ := h
  cases op with
  | write cmd =>
      have hwrite := Transaction.Represents.answer_exhausted (t := { space := s.working }) hs.working cmd s.supply
      exact ((hs.call_meets cmd).comes hwrite now).bind fun x next hrun hx => Comes.pure hx
  | transaction script => exact (hs.transaction_comes script now).bind fun x next hrun hx => Comes.pure hx

/-- The stores after acts on an empty one. A copy of a store keeps what it had, as a snapshot does. -/
def run (config : Config) (acts : List (Act (Operation Keyspace.Query.Answer ε α) Query)) : Edit (List Store) :=
  actAll (operate Keyspace.ask) ask [empty config] acts

/-- A run on a store that comes to a write that finds a pool of the writer's state full. -/
def RunsFull (config : Config) (acts : List (Act (Operation Keyspace.Query.Answer ε α) Query)) (now : Stamp) : Prop :=
  OrderedStore.RunsFull (operate Keyspace.ask) ask (fun s op _ => s.FindsFull Keyspace.ask op) [empty config] acts now

/-- **A run on a store ends well**, whatever its transactions do and wherever they give up, unless it finds a pool
full. -/
theorem run_endsUnless (config : Config) (acts : List (Act (Operation Keyspace.Query.Answer ε α) Query))
    (now : Stamp) : EndsUnless (RunsFull config acts now) ((run config acts).run now) := by
  refine (actAll_comes (P := fun s => ∃ c, s.Represents config c) operate_comes ?_ ?_ acts now).endsUnless
  · intro s q h
    obtain ⟨c, hs⟩ := h
    exact hs.ask_succeeds q
  · intro s hs
    rw [List.mem_singleton.1 hs]
    exact ⟨_, represents_empty config⟩

end Store

/-! ## All runs -/

/-- **No run ends in a broken invariant.** Runs of calls and questions on maps, scored sets and stores, with any
number of versions kept, copied and read, end without a fault, unless they come to a call that finds a pool with
every slot number handed out. Descents neither fault nor compute a position out of range. -/
theorem runs_faultless {V ε α : Type} :
    (∀ limit stamp now (acts : List (Act (Call V) (OrderedMap.Query V))),
      EndsUnless (OrderedMap.RunsFull limit stamp acts now) ((OrderedMap.run limit stamp acts).run now)) ∧
    (∀ limit now (acts : List (Act (ScoredSet.Call V) ScoredSet.Query)),
      EndsUnless (ScoredSet.RunsFull limit acts now) ((ScoredSet.run limit acts).run now)) ∧
    (∀ config now (acts : List (Act (Operation Keyspace.Query.Answer ε α) Store.Query)),
      EndsUnless (Store.RunsFull config acts now) ((Store.run config acts).run now)) ∧
    ∀ n : Node, n.InRange :=
  ⟨fun limit stamp now acts => OrderedMap.run_endsUnless limit stamp acts now,
    fun limit now acts => ScoredSet.run_endsUnless limit acts now,
    fun config now acts => Store.run_endsUnless config acts now,
    Node.inRange⟩

end OrderedStore
