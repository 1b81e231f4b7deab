import Mathlib.Tactic
import OrderedStore.Proofs.Answers
import OrderedStore.Proofs.Store.Operations
import OrderedStore.Proofs.Store.Script

/-!
# Publication

Readers run beside the writer, so what they may see is told step by step. The writer begins an operation,
makes its reads and writes one at a time, and ends it or gives up; between any two of these steps, and in the
middle of an operation too, readers take snapshots. A scene keeps, beside the store, what the steps amount to:
the keyspaces that were committed and the snapshots that were taken. A single write is an operation with one
step that does not give up.

A scene commits when an operation ends well and one of its writes told of a change. That is not how the store
decides, which looks at its own mark; the main statement says that it comes to the same. It says so of the steps
and of the operations in one piece: whatever a transaction or a write answers, the store that it leaves publishes
what it should, and it is the store that the steps of the operation lead to.
-/

namespace OrderedStore

/-- An operation in the middle: what is left to do, and the writes made so far with their answers. -/
structure Running : Type 1 where
  ε : Type
  α : Type
  body : Program ε α
  state : Transaction
  supply : Stamp
  writes : List ((c : Command) × c.Answer)

/-- Whether any write so far told of a change. -/
def Running.changes (r : Running) : Bool := r.writes.any fun w => w.1.changes w.2

/-- Whether any write of a body tells of a change, run from a state of the writer on. -/
def Program.changes {ε α : Type} : Program ε α → Transaction → Stamp → Bool
  | .done _, _, _ | .fail _, _, _ | .stop _, _, _ => false
  | .read next, t, now => (next t.space).changes t now
  | .write c next, t, now =>
    match (t.perform c).run now with
    | .ok ((answer, t'), later) => c.changes answer || (next answer).changes t' later
    | .error _ => false

/-- A store with its writer and its readers at one moment. -/
structure Scene : Type 1 where
  store : Store
  running : Option Running
  /-- The keyspaces committed so far, the last one first. The first keyspace counts as committed. -/
  commits : List Keyspace
  /-- The snapshots taken so far, each with the number of its reader, the last one first. -/
  seen : List (Nat × Keyspace)

namespace Scene

/-- A new store. -/
def start (config : Config) : Scene :=
  { store := .empty config, running := none, commits := [(Store.empty config).published], seen := [] }

/-- One step of the writer or of a reader. -/
inductive Step : Scene → Scene → Prop
  | snapshot {s : Scene} (reader : Nat) : Step s { s with seen := (reader, s.store.snapshot) :: s.seen }
  | begin {s : Scene} {ε α : Type} (body : Program ε α) (idle : s.running = none) :
    Step s { s with running := some ⟨ε, α, body, { space := s.store.working }, s.store.supply, []⟩ }
  | read {s : Scene} {ε α : Type} {next : Keyspace → Program ε α} {t : Transaction} {supply : Stamp}
    {writes : List ((c : Command) × c.Answer)} (running : s.running = some ⟨ε, α, .read next, t, supply, writes⟩) :
    Step s { s with running := some ⟨ε, α, next t.space, t, supply, writes⟩ }
  | write {s : Scene} {ε α : Type} {c : Command} {next : c.Answer → Program ε α} {t t' : Transaction}
    {supply supply' : Stamp} {answer : c.Answer} {writes : List ((c : Command) × c.Answer)}
    (running : s.running = some ⟨ε, α, .write c next, t, supply, writes⟩)
    (performed : (t.perform c).run supply = .ok ((answer, t'), supply')) :
    Step s { s with running := some ⟨ε, α, next answer, t', supply', ⟨c, answer⟩ :: writes⟩ }
  | done {s : Scene} {r : Running} {answer : r.α} (running : s.running = some r) (ends : r.body = .done answer) :
    Step s
      { s with
        store := s.store.finish r.state r.supply
        running := none
        commits :=
          if r.changes then { r.state.space with generation := s.store.published.generation + 1 } :: s.commits
          else s.commits }
  | fail {s : Scene} {r : Running} {reason : r.ε} (running : s.running = some r) (ends : r.body = .fail reason) :
    Step s { s with store := s.store.rollback, running := none }

/-- What any order of steps may come to from a new store. -/
inductive Reachable (config : Config) : Scene → Prop
  | start : Reachable config (start config)
  | step {s s' : Scene} (h : Reachable config s) (hs : Step s s') : Reachable config s'

/-! ## Step by step -/

theorem Reachable.steps {config : Config} {s s' : Scene} (h : Reachable config s) (hs : Relation.ReflTransGen Step s s') :
    Reachable config s' := by
  induction hs with
  | refl => exact h
  | tail _ hs ih => exact ih.step hs

/-- The program that is left when an operation has come to its end. -/
def leftOver {ε α : Type} : Except ε α → Program ε α
  | .ok answer => .done answer
  | .error reason => .fail reason

/-- Whatever a body does in one piece it does step by step, and its writes tell the same. -/
theorem run_steps {ε α : Type} {body : Program ε α} {t t' : Transaction} {supply supply' : Stamp}
    {result : Except ε α} (h : (body.run t).run supply = .ok ((result, t'), supply')) :
    ∀ (s : Scene) (writes : List ((c : Command) × c.Answer)),
      s.running = some ⟨ε, α, body, t, supply, writes⟩ →
      ∃ writes', Relation.ReflTransGen Step s
          { s with running := some ⟨ε, α, leftOver result, t', supply', writes'⟩ } ∧
        (writes'.any fun w => w.1.changes w.2) =
          ((writes.any fun w => w.1.changes w.2) || body.changes t supply) := by
  induction body generalizing t supply with
  | done answer =>
      intro s writes hr
      cases h
      exact ⟨writes, by rw [leftOver, ← hr], (Bool.or_false _).symm⟩
  | fail reason =>
      intro s writes hr
      cases h
      exact ⟨writes, by rw [leftOver, ← hr], (Bool.or_false _).symm⟩
  | stop fault => cases h
  | read next ih =>
      intro s writes hr
      rw [Program.run] at h
      obtain ⟨writes', hsteps, hchanges⟩ := ih t.space h
        { s with running := some ⟨ε, α, next t.space, t, supply, writes⟩ } writes rfl
      exact ⟨writes', .head (.read hr) hsteps, hchanges⟩
  | write c next ih =>
      intro s writes hr
      rw [Program.run] at h
      cases hp : (t.perform c).run supply with
      | error fault =>
          rw [Edit.run_bind_error hp] at h
          cases h
      | ok middle =>
          obtain ⟨⟨answer, t₁⟩, supply₁⟩ := middle
          rw [Edit.run_bind_ok hp] at h
          obtain ⟨writes', hsteps, hchanges⟩ := ih answer h
            { s with running := some ⟨ε, α, next answer, t₁, supply₁, ⟨c, answer⟩ :: writes⟩ } _ rfl
          refine ⟨writes', .head (.write hr hp) hsteps, ?_⟩
          rw [hchanges, Program.changes, hp, List.any_cons, Bool.or_comm (c.changes answer), Bool.or_assoc]

/-! ## What holds at every moment -/

/-- Where an operation stands to the keyspace it began with: it has the same generation, its mark says
whether a write told of a change, and without a change it is that keyspace still. -/
structure Underway (r : Running) (from_ : Keyspace) : Prop where
  marked : r.state.changed = r.changes
  generation : r.state.space.generation = from_.generation
  kept : r.changes = false → r.state.space = from_

/-- The invariant of every scene. -/
structure Sound (s : Scene) : Prop where
  published : s.commits.head? = some s.store.published
  working : s.store.working = s.store.published
  underway : ∀ r, s.running = some r → Underway r s.store.published
  generations : s.commits.map Keyspace.generation = (List.range s.commits.length).reverse
  committed : ∀ x ∈ s.seen, x.2 ∈ s.commits
  ascending : s.seen.Pairwise fun later earlier => earlier.2.generation ≤ later.2.generation

theorem sound_start (config : Config) : (start config).Sound where
  published := rfl
  working := rfl
  underway := by simp [start]
  generations := rfl
  committed := by simp [start]
  ascending := List.Pairwise.nil

/-- The generations are counted through, and the published one is the last. -/
theorem Sound.length_commits {s : Scene} (h : s.Sound) : s.commits.length = s.store.published.generation + 1 := by
  obtain ⟨commits, hcommits⟩ := List.head?_eq_some_iff.1 h.published
  have hgen := h.generations
  rw [hcommits, List.length_cons, List.range_succ, List.reverse_append, List.reverse_singleton,
    List.singleton_append, List.map_cons, List.cons.injEq] at hgen
  rw [hcommits, List.length_cons, hgen.1]

/-- No commit has a greater generation than the one that is published. -/
theorem Sound.generation_le {s : Scene} (h : s.Sound) {k : Keyspace} (hk : k ∈ s.commits) :
    k.generation ≤ s.store.published.generation := by
  have hmem : k.generation ∈ s.commits.map Keyspace.generation := List.mem_map_of_mem hk
  rw [h.generations, List.mem_reverse, List.mem_range, h.length_commits] at hmem
  omega

/-- A commit one generation on. -/
theorem Sound.generations_cons {s : Scene} (h : s.Sound) {k : Keyspace}
    (hk : k.generation = s.store.published.generation + 1) :
    (k :: s.commits).map Keyspace.generation = (List.range (k :: s.commits).length).reverse := by
  rw [List.map_cons, h.generations, hk, ← h.length_commits, List.length_cons, List.range_succ, List.reverse_append,
    List.reverse_singleton, List.singleton_append]

theorem Underway.write {t t' : Transaction} {ε α : Type} {c : Command} {next : c.Answer → Program ε α}
    {supply supply' : Stamp} {answer : c.Answer} {writes : List ((c : Command) × c.Answer)} {k : Keyspace}
    (h : Underway ⟨ε, α, .write c next, t, supply, writes⟩ k) (hl : t.Leads (c.changes answer) t') :
    Underway ⟨ε, α, next answer, t', supply', ⟨c, answer⟩ :: writes⟩ k where
  marked := by
    have hmarked := h.marked
    unfold Running.changes at hmarked ⊢
    dsimp only at hmarked ⊢
    rw [hl.changed, hmarked, List.any_cons, Bool.or_comm]
  generation := hl.generation.trans h.generation
  kept := by
    intro hnone
    unfold Running.changes at hnone
    rw [List.any_cons, Bool.or_eq_false_iff] at hnone
    dsimp only
    rw [hl.kept hnone.1]
    exact h.kept hnone.2

/-- What an operation that ends well should leave behind: its own keyspace, as the next generation, if a write
told of a change, and otherwise the keyspace that was published before. -/
def next (s : Scene) (r : Running) : Keyspace :=
  if r.changes then { r.state.space with generation := s.store.published.generation + 1 } else s.store.published

/-- **What a store publishes at the end of an operation is what it should.** -/
theorem Sound.finish_eq {s : Scene} (h : s.Sound) {r : Running} (hr : s.running = some r) :
    s.store.finish r.state r.supply = { working := s.next r, published := s.next r, supply := r.supply } := by
  have hold := h.underway r hr
  unfold Store.finish next
  cases hchanges : r.changes with
  | false =>
      rw [hold.marked, hchanges, hold.kept hchanges]
      rfl
  | true =>
      unfold Store.commit
      rw [hold.marked, hchanges, hold.generation]
      rfl

/-- **Every step keeps the invariant.** -/
theorem Sound.step {s s' : Scene} (h : s.Sound) (hs : Step s s') : s'.Sound := by
  cases hs with
  | snapshot reader =>
      -- a reader is handed what is published, which is the last commit
      have hmem : s.store.published ∈ s.commits := List.mem_of_head? h.published
      refine ⟨h.published, h.working, h.underway, h.generations, ?_, ?_⟩
      · exact List.forall_mem_cons.2 ⟨hmem, h.committed⟩
      · refine List.pairwise_cons.2 ⟨fun x hx => ?_, h.ascending⟩
        exact h.generation_le (h.committed x hx)
  | begin body idle =>
      refine ⟨h.published, h.working, ?_, h.generations, h.committed, h.ascending⟩
      intro r hr
      obtain rfl := Option.some.inj hr
      -- between operations the writer has what is published, so this is where it begins
      exact ⟨rfl, congrArg Keyspace.generation h.working, fun _ => h.working⟩
  | read running =>
      refine ⟨h.published, h.working, ?_, h.generations, h.committed, h.ascending⟩
      intro r hr
      obtain rfl := Option.some.inj hr
      have hold := h.underway _ running
      exact ⟨hold.marked, hold.generation, hold.kept⟩
  | write running performed =>
      refine ⟨h.published, h.working, ?_, h.generations, h.committed, h.ascending⟩
      intro r hr
      obtain rfl := Option.some.inj hr
      -- what the write tells in its answer is what it did to the keyspace and to the mark
      exact (h.underway _ running).write (Transaction.perform_ensures _ _ _ _ _ performed)
  | @done r answer running ends =>
      rw [h.finish_eq running]
      unfold next
      cases hchanges : r.changes with
      -- without a change nothing is committed, and the keyspace is the one that was published
      | false => exact ⟨h.published, rfl, by simp, h.generations, h.committed, h.ascending⟩
      | true =>
          refine ⟨rfl, rfl, by simp, h.generations_cons rfl, ?_, h.ascending⟩
          exact fun x hx => List.mem_cons_of_mem _ (h.committed x hx)
  | fail running ends =>
      exact ⟨h.published, rfl, by simp [Store.rollback], h.generations, h.committed, h.ascending⟩

theorem Sound.steps {s s' : Scene} (h : s.Sound) (hs : Relation.ReflTransGen Step s s') : s'.Sound := by
  induction hs with
  | refl => exact h
  | tail _ hs ih => exact ih.step hs

theorem Reachable.sound {config : Config} {s : Scene} (h : Reachable config s) : s.Sound := by
  induction h with
  | start => exact sound_start config
  | step _ hs ih => exact ih.step hs

/-! ## Operations in one piece -/

/-- What an operation leaves of a scene at rest, given whether it ends well with a change and the keyspace that it has
come to. -/
structure Leaves (s : Scene) (commits : Bool) (space : Keyspace) (store : Store) : Prop where
  /-- What is changed is published as the next generation, and without a change nothing is published. -/
  published : store.published =
    if commits then { space with generation := s.store.published.generation + 1 } else s.store.published
  /-- The writer has what is published. -/
  working : store.working = store.published
  /-- The steps of the operation lead to this store. -/
  steps : ∃ s', Relation.ReflTransGen Step s s' ∧ s'.running = none ∧ s'.store = store ∧ s'.seen = s.seen ∧
    s'.commits = if commits then store.published :: s.commits else s.commits

/-- An operation in one piece stops where its run meets a fault. If the run comes to an answer, so does the operation,
and it leaves what it should. -/
structure EndsAs (s : Scene) {β : Type} (run : Except Fault ((β × Transaction) × Stamp)) (commits : β → Bool)
    (outcome : Except Fault (β × Store)) : Prop where
  faults : ∀ fault, run = .error fault → outcome = .error fault
  ends : ∀ answer t supply, run = .ok ((answer, t), supply) →
    ∃ store, outcome = .ok (answer, store) ∧ s.Leaves (commits answer) t.space store

/-- The answer alone tells what is left. -/
theorem EndsAs.of_answer {s : Scene} {β : Type} {run : Except Fault ((β × Transaction) × Stamp)} {commits : β → Bool}
    {outcome : Except Fault (β × Store)} (h : s.EndsAs run commits outcome) {answer : β} {told : Bool}
    (hanswer : run.map (fun r => r.1.1) = .ok answer) (htold : commits answer = told) :
    ∃ space store, outcome = .ok (answer, store) ∧ s.Leaves told space store := by
  obtain ⟨⟨⟨_, t⟩, supply⟩, hrun, rfl⟩ := exists_of_map_eq_ok hanswer
  obtain ⟨store, houtcome, hleaves⟩ := h.ends _ _ _ hrun
  rw [htold] at hleaves
  exact ⟨t.space, store, houtcome, hleaves⟩

section Operations

variable {s : Scene} {ε α : Type} {body : Program ε α} {t : Transaction} {supply : Stamp}

/-- **What a body comes to is kept or given up as it should.** -/
theorem Sound.leaves (h : s.Sound) (idle : s.running = none) {result : Except ε α}
    (hrun : (body.run { space := s.store.working }).run s.store.supply = .ok ((result, t), supply)) :
    s.Leaves (Except.isOk result && body.changes { space := s.store.working } s.store.supply) t.space
      (if Except.isOk result then s.store.finish t supply else s.store.rollback) := by
  obtain ⟨writes, hsteps, hchanges⟩ := run_steps hrun
    { s with running := some ⟨ε, α, body, { space := s.store.working }, s.store.supply, []⟩ } [] rfl
  rw [List.any_nil, Bool.false_or] at hchanges
  replace hsteps := Relation.ReflTransGen.head (Step.begin body idle) hsteps
  cases result with
  | error reason => exact ⟨rfl, rfl, _, hsteps.tail (.fail rfl rfl), rfl, rfl, rfl, rfl⟩
  | ok answer =>
      change s.Leaves (body.changes { space := s.store.working } s.store.supply) t.space (s.store.finish t supply)
      rw [← hchanges]
      -- the mark of the transaction says what its writes told
      have hfinish := (h.steps hsteps).finish_eq rfl
      have hpublished := congrArg Store.published hfinish
      refine ⟨hpublished, (congrArg Store.working hfinish).trans hpublished.symm, _, hsteps.tail (.done rfl rfl), rfl,
        rfl, rfl, ?_⟩
      dsimp only at hpublished
      rw [hpublished]
      unfold next Running.changes
      split <;> rfl

theorem Sound.transaction_endsAs (h : s.Sound) (idle : s.running = none) (body : Program ε α) :
    s.EndsAs ((body.run { space := s.store.working }).run s.store.supply)
      (fun result => Except.isOk result && body.changes { space := s.store.working } s.store.supply)
      (s.store.transaction body) where
  faults _ hrun := Store.transaction_of_fault hrun
  ends _ _ _ hrun := ⟨_, Store.transaction_of_run hrun, h.leaves idle hrun⟩

/-- A body that makes one write and answers or gives up at once. -/
theorem run_orFail {c : Command} {answer : c.Answer} (result : c.Answer → Except ε α)
    (hrun : (({ space := s.store.working } : Transaction).perform c).run s.store.supply = .ok ((answer, t), supply)) :
    ((Program.write c fun answer => Store.orFail (result answer)).run { space := s.store.working }).run
        s.store.supply = .ok ((result answer, t), supply) ∧
      (Program.write c fun answer => Store.orFail (result answer)).changes { space := s.store.working }
        s.store.supply = c.changes answer := by
  constructor
  · rw [Program.run, Edit.run_bind_ok hrun]
    dsimp only
    cases result answer <;> rfl
  · rw [Program.changes, hrun]
    dsimp only
    cases result answer <;> exact Bool.or_false _

theorem Sound.write_endsAs (h : s.Sound) (idle : s.running = none) (c : Command) :
    s.EndsAs ((({ space := s.store.working } : Transaction).perform c).run s.store.supply) c.changes
      (s.store.write c) where
  faults _ hrun := Store.write_of_fault hrun
  ends answer t supply hrun := by
    obtain ⟨hbody, hchanges⟩ := run_orFail (fun answer => (.ok answer : Except Empty _)) hrun
    have hleaves := h.leaves idle hbody
    rw [hchanges] at hleaves
    exact ⟨_, Store.write_of_perform hrun, hleaves⟩

/-- A write that can be refused, as a transaction of its own that gives up, if a refusal tells of no change. -/
theorem Sound.attempt_ends (h : s.Sound) (idle : s.running = none) {c : Command} {answer : c.Answer}
    (result : c.Answer → Except ε α) (hrefused : (Except.isOk (result answer) && c.changes answer) = c.changes answer)
    (hrun : (({ space := s.store.working } : Transaction).perform c).run s.store.supply = .ok ((answer, t), supply)) :
    ∃ store, s.store.transaction (.write c fun answer => Store.orFail (result answer)) = .ok (result answer, store) ∧
      s.Leaves (c.changes answer) t.space store := by
  obtain ⟨hbody, hchanges⟩ := run_orFail result hrun
  have hleaves := h.leaves idle hbody
  rw [hchanges, hrefused] at hleaves
  exact ⟨_, Store.transaction_of_run hbody, hleaves⟩

theorem attempt_faults {c : Command} {fault : Fault} (result : c.Answer → Except ε α)
    (hrun : (({ space := s.store.working } : Transaction).perform c).run s.store.supply = .error fault) :
    s.store.transaction (.write c fun answer => Store.orFail (result answer)) = .error fault := by
  refine Store.transaction_of_fault ?_
  rw [Program.run]
  exact Edit.run_bind_error hrun

/-- **Each of the six calls** is a write that publishes just if its answer tells of a change. -/
theorem Sound.call_endsAs (h : s.Sound) (idle : s.running = none) (c : Command) :
    s.EndsAs ((({ space := s.store.working } : Transaction).perform c).run s.store.supply) c.changes
      (s.store.call c) := by
  cases c with
  | set key value =>
      refine ⟨fun fault hrun => attempt_faults (c := .set key value) id hrun, fun answer t supply hrun => ?_⟩
      exact h.attempt_ends idle (c := .set key value) id (Bool.and_self _) hrun
  | addMembers key items =>
      refine ⟨fun fault hrun => attempt_faults (c := .addMembers key items) id hrun, fun answer t supply hrun => ?_⟩
      refine h.attempt_ends idle (c := .addMembers key items) id ?_ hrun
      exact (Bool.and_assoc _ _ _).symm.trans (congrArg (· && _) (Bool.and_self _))
  | delete key => exact h.write_endsAs idle (.delete key)
  | deleteUnder start => exact h.write_endsAs idle (.deleteUnder start)
  | removeMembers key members => exact h.write_endsAs idle (.removeMembers key members)
  | dropSet key => exact h.write_endsAs idle (.dropSet key)

end Operations

/-- What the writer and the readers of a store can rely on. -/
structure Consistent (s : Scene) : Prop where
  /-- The published keyspace is the state after the last commit. -/
  published : s.commits.head? = some s.store.published
  /-- Each commit has the generation after the one before it; the first keyspace has generation zero. -/
  generations : s.commits.map Keyspace.generation = (List.range s.commits.length).reverse
  /-- Between operations the writer's keyspace is the published one. -/
  settled : s.running = none → s.store.working = s.store.published
  /-- An operation that ends now leaves what it should, to the writer and to the readers. -/
  ends : ∀ r, s.running = some r →
    s.store.finish r.state r.supply = { working := s.next r, published := s.next r, supply := r.supply }
  /-- An operation that gives up now leaves the writer with what is published, and publishes nothing. -/
  givesUp : s.store.rollback = { s.store with working := s.store.published }
  /-- What was handed to a reader was committed. -/
  committed : ∀ x ∈ s.seen, x.2 ∈ s.commits
  /-- The generations handed to readers never go down. -/
  ascending : s.seen.Pairwise fun later earlier => earlier.2.generation ≤ later.2.generation
  /-- Two snapshots of one generation are the same. -/
  same : ∀ x ∈ s.seen, ∀ y ∈ s.seen, x.2.generation = y.2.generation → x.2 = y.2
  /-- A transaction raises the generation by one if its body ends well and a write told of a change, and otherwise
  publishes nothing. -/
  transaction : s.running = none → ∀ {ε α : Type} (body : Program ε α),
    s.EndsAs ((body.run { space := s.store.working }).run s.store.supply)
      (fun result => Except.isOk result && body.changes { space := s.store.working } s.store.supply)
      (s.store.transaction body)
  /-- A write that cannot be refused does so if its answer tells of a change. -/
  write : s.running = none → ∀ c : Command,
    s.EndsAs ((({ space := s.store.working } : Transaction).perform c).run s.store.supply) c.changes
      (s.store.write c)
  /-- So does each of the six calls. -/
  call : s.running = none → ∀ c : Command,
    s.EndsAs ((({ space := s.store.working } : Transaction).perform c).run s.store.supply) c.changes
      (s.store.call c)

/-- **Publication is consistent** in every order of the steps of a writer and any readers. -/
theorem consistent_of_reachable {config : Config} {s : Scene} (h : Reachable config s) : s.Consistent := by
  have hs := h.sound
  refine ⟨hs.published, hs.generations, fun _ => hs.working, fun _ hr => hs.finish_eq hr, rfl, hs.committed,
    hs.ascending, ?_, fun idle _ _ body => hs.transaction_endsAs idle body, hs.write_endsAs, hs.call_endsAs⟩
  intro x hx y hy heq
  -- generations are counted through, so no two commits share one
  have hnd : (s.commits.map Keyspace.generation).Nodup := by
    rw [hs.generations, List.nodup_reverse]
    exact List.nodup_range
  exact List.inj_on_of_nodup_map hnd (hs.committed x hx) (hs.committed y hy) heq

/-- One value is stored. -/
def storesOne : Program Empty Unit := .write (.set [97] [98]) fun _ => .done ()

/-- The value is removed, and then the body gives up. -/
def removesInVain : Program Unit Unit := .write (.delete [97]) fun _ => .fail ()

/-- The store with the value. -/
def withOne : Store :=
  match (Store.empty {}).transaction storesOne with
  | .ok (_, store) => store
  | .error _ => .empty {}

/-- A reader asks before and after a transaction that stores a value. From there on a write that removes the value
publishes once more, while one that finds nothing and a transaction that gives up leave to the readers what there was. -/
theorem consistent_after_set :
    ∃ s, Reachable {} s ∧ s.commits.length = 2 ∧ s.seen.length = 2 ∧ s.Consistent ∧ s.store = withOne ∧
      (Store.empty {}).transaction storesOne = .ok (.ok (), withOne) ∧ withOne.published.generation = 1 ∧
      (∃ store, withOne.write (.delete [97]) = .ok (some [98], store) ∧ store.published.generation = 2 ∧
        store.working = store.published) ∧
      (∃ store, withOne.write (.delete [99]) = .ok (none, store) ∧ store.published = withOne.published ∧
        store.working = store.published) ∧
      ∃ store, withOne.transaction removesInVain = .ok (.error (), store) ∧ store.published = withOne.published ∧
        store.working = store.published := by
  have h₀ : Reachable {} (start {}) := .start
  have h₁ := h₀.step (.snapshot 0)
  have hset : ((storesOne.run { space := (Store.empty {}).working }).run (Store.empty {}).supply).map
      (fun r => r.1.1) = .ok (.ok ()) := by
    decide +kernel
  have htold : storesOne.changes { space := (Store.empty {}).working } (Store.empty {}).supply = true := by
    decide +kernel
  obtain ⟨_, store, houtcome, hleaves⟩ := ((consistent_of_reachable h₁).transaction rfl storesOne).of_answer hset htold
  obtain rfl : withOne = store := by
    rw [withOne, show (Store.empty {}).transaction storesOne = _ from houtcome]
  have hgeneration : withOne.published.generation = 1 := by
    rw [hleaves.published]
    rfl
  obtain ⟨⟨store, running, commits, seen⟩, hsteps, idle, hstore, hseen, hcommits⟩ := hleaves.steps
  subst hstore idle hseen hcommits
  have h₂ := (h₁.steps hsteps).step (.snapshot 0)
  have h := consistent_of_reachable h₂
  have hfinds : ((({ space := withOne.working } : Transaction).delete [97]).run withOne.supply).map
      (fun r => r.1.1) = .ok (some [98]) := by
    decide +kernel
  have hmisses : ((({ space := withOne.working } : Transaction).delete [99]).run withOne.supply).map
      (fun r => r.1.1) = .ok none := by
    decide +kernel
  have hfails : ((removesInVain.run { space := withOne.working }).run withOne.supply).map
      (fun r => r.1.1) = .ok (.error ()) := by
    decide +kernel
  obtain ⟨_, removed, hremove, hremoved⟩ := (h.write rfl (.delete [97])).of_answer hfinds rfl
  obtain ⟨_, missed, hmiss, hmissed⟩ := (h.write rfl (.delete [99])).of_answer hmisses rfl
  obtain ⟨_, given, hgive, hgiven⟩ := (h.transaction rfl removesInVain).of_answer hfails rfl
  refine ⟨_, h₂, rfl, rfl, h, rfl, houtcome, hgeneration, ⟨removed, hremove, ?_, hremoved.working⟩,
    ⟨missed, hmiss, hmissed.published, hmissed.working⟩, given, hgive, hgiven.published, hgiven.working⟩
  rw [hremoved.published]
  exact congrArg (· + 1) hgeneration

end Scene

end OrderedStore
