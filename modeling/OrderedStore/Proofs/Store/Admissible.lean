import Mathlib.Tactic
import OrderedStore.Proofs.Store.Publication
import OrderedStore.Proofs.Store.Questions
import OrderedStore.Proofs.Store.Refines

/-!
# What a store holds is admissible

A store looks at what it is given before it writes: at a key by its rules, at a member for its length, at a score for
being a number. It makes a scored set with its first member and drops it with the last. So whatever a keyspace holds
would be accepted again, no set is empty, and an audit finds nothing. This is shown for the contents that a keyspace
stands for, write by write, and carried to the keyspaces of the writer, of the readers and of everything that was ever
committed, at every moment of a store.
-/

namespace OrderedStore

/-! ## Contents -/

namespace FiniteMap

variable {V : Type} {limit : Nat} {s s' : FiniteMap (Scored V)} {score : Binary64} {member : Bytes} {payload : V}

/-- Every member would be accepted again, with the score it has. -/
def Accepted (limit : Nat) (s : FiniteMap (Scored V)) : Prop :=
  ∀ member scored, s.value member = some scored → refusal? limit scored.score member = none

theorem accepted_empty : Accepted limit (empty : FiniteMap (Scored V)) := by
  intro member scored hvalue
  cases hvalue

theorem Accepted.insert (h : s.Accepted limit) (hok : refusal? limit score member = none) :
    (s.insert member ⟨score, payload⟩).Accepted limit := by
  intro member' scored hvalue
  change Function.update s.value member (some ⟨score, payload⟩) member' = some scored at hvalue
  by_cases hmember : member' = member
  · rw [hmember, Function.update_self, Option.some.injEq] at hvalue
    rw [hmember, ← hvalue]
    exact hok
  · rw [Function.update_of_ne hmember] at hvalue
    exact h member' scored hvalue

/-- **A batch that is not refused** leaves members that would not be refused. -/
theorem Accepted.putAll (h : s.Accepted limit) {items : List (ScoredSet.Item V)} {count : Nat}
    (hok : items.findSome? (fun (score, member, _) => refusal? limit score member) = none)
    (hput : s.putAll items = .ok (count, s')) : s'.Accepted limit := by
  induction items generalizing s count with
  | nil =>
      obtain ⟨-, rfl⟩ := Prod.mk.inj (Except.ok.inj hput)
      exact h
  | cons item items ih =>
      obtain ⟨score, member, payload⟩ := item
      obtain ⟨hfirst, hrest⟩ := List.forall_mem_cons.1 (List.findSome?_eq_none_iff.1 hok)
      obtain ⟨count', hput'⟩ := putAll_cons_ok hput
      exact ih (h.insert hfirst) (List.findSome?_eq_none_iff.2 hrest) hput'

theorem Accepted.without (h : s.Accepted limit) (gone : Finset Bytes) : (s.without gone).Accepted limit := by
  intro member scored hvalue
  change (if member ∈ gone then none else s.value member) = some scored at hvalue
  split at hvalue
  · cases hvalue
  · exact h member scored hvalue

end FiniteMap

namespace Contents

variable {config : Config} {c c' : Contents} {key : Bytes}

/-- Everything that is stored would be accepted again. -/
structure Admissible (config : Config) (c : Contents) : Prop where
  values : ∀ key ∈ c.values.keys, KeyRules.check config key = .ok ()
  sets : ∀ key ∈ c.sets.keys, KeyRules.check config key = .ok ()
  members : ∀ key, (c.members key).Accepted config.keyLimit

theorem admissible_empty (config : Config) : Contents.empty.Admissible config where
  values := by simp [empty, FiniteMap.empty]
  sets := by simp [empty, FiniteMap.empty]
  members := fun _ => FiniteMap.accepted_empty

/-- Only values that are there stay there, or are put under a key that is accepted. -/
theorem Admissible.withValues (h : c.Admissible config) {values : FiniteMap Bytes}
    (hvalues : ∀ key ∈ values.keys, key ∈ c.values.keys ∨ KeyRules.check config key = .ok ()) :
    ({ c with values } : Contents).Admissible config where
  values := fun key hkey => (hvalues key hkey).elim (h.values key) id
  sets := h.sets
  members := h.members

/-- A set may be given accepted members, under an accepted key if there are any. -/
theorem Admissible.withMembers (h : c.Admissible config) {z : FiniteMap (Scored Bytes)}
    (hkey : z.keys ≠ ∅ → KeyRules.check config key = .ok ()) (hz : z.Accepted config.keyLimit) :
    (c.withMembers key z).Admissible config where
  values := h.values
  sets := by
    intro key' hmem
    rw [← (c.withMembers key z).sets.value_isSome, c.withMembers_value] at hmem
    by_cases heq : key' = key
    · rw [heq, Function.update_self] at hmem
      split at hmem
      · cases hmem
      · rename_i hfilled
        exact heq ▸ hkey hfilled
    · rw [Function.update_of_ne heq, c.sets.value_isSome] at hmem
      exact h.sets key' hmem
  members := by
    intro key'
    rw [c.members_withMembers]
    split
    · exact hz
    · exact h.members key'

/-- A set that is left with members was there before. -/
theorem Admissible.removeMembers (h : c.Admissible config) (gone : Finset Bytes) :
    (c.withMembers key ((c.members key).without gone)).Admissible config := by
  refine h.withMembers (fun hfilled => h.sets key ?_) ((h.members key).without gone)
  by_contra habsent
  refine hfilled (Finset.subset_empty.1 ?_)
  rw [c.members_of_absent (c.sets.value_of_not_mem habsent)]
  exact Finset.sdiff_subset

/-- **Every write keeps contents admissible.** -/
theorem Admissible.answer (h : c.Admissible config) {cmd : Command} {answer : cmd.Answer}
    (hanswer : c.answer config cmd = .ok (answer, c')) : c'.Admissible config := by
  cases cmd with
  | set key value =>
      rcases set_cases hanswer with ⟨reason, -, rfl⟩ | ⟨hcheck, -, rfl⟩
      · exact h
      · refine h.withValues fun key' hmem => ?_
        rcases Finset.mem_insert.1 hmem with rfl | hmem
        · exact Or.inr hcheck
        · exact Or.inl hmem
  | delete key =>
      obtain ⟨-, rfl⟩ := Prod.mk.inj (Except.ok.inj hanswer)
      exact h.withValues fun key' hmem => Or.inl (Finset.mem_of_mem_erase hmem)
  | deleteUnder start =>
      obtain ⟨-, rfl⟩ := Prod.mk.inj (Except.ok.inj hanswer)
      exact h.withValues fun key' hmem => Or.inl (Finset.mem_filter.1 hmem).1
  | addMembers key items =>
      -- a batch that is stored is not refused, and neither is its key
      rcases addMembers_cases hanswer with ⟨rfl, -⟩ | ⟨hcheck, hok, count, z, hput, -, rfl⟩
      · exact h
      · exact h.withMembers (fun _ => hcheck) ((h.members key).putAll hok hput)
  | removeMembers key gone =>
      obtain ⟨-, rfl⟩ := Prod.mk.inj (Except.ok.inj hanswer)
      exact h.removeMembers gone.toFinset
  | dropSet key =>
      obtain ⟨-, rfl⟩ := Prod.mk.inj (Except.ok.inj hanswer)
      exact h.withMembers (fun hfilled => absurd rfl hfilled) FiniteMap.accepted_empty

end Contents

/-! ## Keyspaces -/

/-- A scored set has members, none of them too long and all of them with numbers for scores, in the map by member and
along the chain. -/
structure ScoredSet.Admissible {V : Type} (limit : Nat) (z : ScoredSet V) : Prop where
  filled : z.isEmpty = false
  members : ∀ member, z.byMember.contains member = true → ∃ scored, z.get? member = .ok (some scored) ∧
    member.length ≤ limit ∧ scored.score.isNaN = false
  chain : ∀ id leaf, z.chain.leaf? id = some leaf → leaf.key.length ≤ limit ∧ leaf.value.score.isNaN = false

/-- What a keyspace holds is allowed by its configuration, and an audit of it finds nothing. -/
structure Keyspace.Admissible (config : Config) (k : Keyspace) : Prop where
  settings : k.config = config
  keys : ∀ key, k.values.contains key = true → KeyRules.check config key = .ok ()
  setKeys : ∀ key, k.sets.contains key = true → KeyRules.check config key = .ok ()
  sets : ∀ key, k.sets.contains key = true → ∃ z, k.set? key = .ok (some z) ∧ z.Admissible config.keyLimit
  sound : k.issues = .ok []

/-- **A set that stands for accepted members** is admissible: its leaves have its members and their scores. -/
theorem ScoredSet.Represents.admissible {V : Type} {limit : Nat} {z : ScoredSet V} {s : FiniteMap (Scored V)}
    (h : ScoredSet.Represents limit z s) (hfilled : s.keys ≠ ∅) (hs : s.Accepted limit) : z.Admissible limit where
  filled := Bool.eq_false_iff.2 (mt h.isEmpty_iff.1 hfilled)
  members := by
    intro member hcontains
    obtain ⟨-, es, tiers, hz, hlists⟩ := h
    obtain ⟨e, he, rfl⟩ := (hz.members.contains_iff member).1 hcontains
    have hvalue := hlists.value e he
    exact ⟨e.value, by rw [hz.get?_eq hlists, hvalue], FiniteMap.refusal?_eq_none_iff.1 (hs _ _ hvalue)⟩
  chain := by
    intro id leaf hleaf
    obtain ⟨-, es, tiers, hz, hlists⟩ := h
    -- the chain has no live leaf but those in stock
    have hmem := hz.tiered.chained.mem_of_live hz.tiered.live (by rw [hleaf]; rfl)
    obtain ⟨e, he, rfl⟩ := List.mem_map.1 hmem
    have hvalue := (hz.value_iff hlists).2 (List.mem_map_of_mem he)
    obtain ⟨xs, ys, hparts⟩ := List.append_of_mem he
    have hchained := hz.tiered.chained
    rw [hparts] at hchained
    obtain rfl := Option.some.inj ((Pool.leaf?_of_mem hchained).symm.trans hleaf)
    exact FiniteMap.refusal?_eq_none_iff.1 (hs _ _ hvalue)

namespace Keyspace

variable {config : Config} {k : Keyspace} {c : Contents}

/-- The sets of a keyspace are under the keys that the contents have sets under. -/
theorem Represents.mem_sets_iff (h : k.Represents config c) (key : Bytes) :
    key ∈ c.sets.keys ↔ k.sets.contains key = true := by
  obtain ⟨zs, hzs, hmatch⟩ := h.sets
  rw [← hmatch.keys_eq, hzs.mem_keys_iff]

/-- **A keyspace that stands for admissible contents** is admissible. -/
theorem Represents.admissible (h : k.Represents config c) (hc : c.Admissible config) : k.Admissible config where
  settings := h.settings
  keys := fun key hkey => hc.values key ((h.values.mem_keys_iff key).2 hkey)
  setKeys := fun key hkey => hc.sets key ((h.mem_sets_iff key).2 hkey)
  sets := by
    intro key hkey
    obtain ⟨s, hs⟩ := Option.isSome_iff_exists.1 ((c.sets.value_isSome key).2 ((h.mem_sets_iff key).2 hkey))
    obtain ⟨found, hfound, hrel⟩ := h.set?_eq key
    rw [hs] at hrel
    cases hrel with
    | some hz => exact ⟨_, hfound, hz.admissible (c.filled key s hs) (c.members_of_value hs ▸ hc.members key)⟩
  sound := h.issues_eq

/-- The keyspace stands for contents that are admissible. -/
def Keeps (config : Config) (k : Keyspace) : Prop := ∃ c, k.Represents config c ∧ c.Admissible config

theorem keeps_empty (config : Config) (now : Stamp) : (empty config now).Keeps config :=
  ⟨.empty, represents_empty config now, Contents.admissible_empty config⟩

theorem Keeps.admissible (h : k.Keeps config) : k.Admissible config := by
  obtain ⟨c, hk, hc⟩ := h
  exact hk.admissible hc

/-- **Every write keeps a keyspace so**, in the middle of a transaction too. -/
theorem Keeps.perform {t t' : Transaction} {cmd : Command} {answer : cmd.Answer} {now next : Stamp}
    (h : t.space.Keeps config) (hrun : (t.perform cmd).run now = .ok ((answer, t'), next)) : t'.space.Keeps config := by
  obtain ⟨c, hk, hc⟩ := h
  obtain ⟨c', hanswer, ht'⟩ := (Transaction.Represents.perform_meets hk cmd).of_run hrun
  exact ⟨c', ht', hc.answer hanswer⟩

theorem Keeps.regenerate (h : k.Keeps config) (generation : Nat) : ({ k with generation } : Keyspace).Keeps config := by
  obtain ⟨c, hk, hc⟩ := h
  exact ⟨c, ⟨hk.settings, hk.values, hk.sets⟩, hc⟩

end Keyspace

/-! ## Every moment of a store -/

namespace Scene

/-- What is true of every keyspace there is at a moment: the writer's, that of an operation in the middle, the
published one, and all that were ever committed or handed to a reader. -/
structure Throughout (P : Keyspace → Prop) (s : Scene) : Prop where
  working : P s.store.working
  published : P s.store.published
  running : ∀ r, s.running = some r → P r.state.space
  commits : ∀ k ∈ s.commits, P k
  seen : ∀ x ∈ s.seen, P x.2

variable {P Q : Keyspace → Prop} {s s' : Scene}

theorem Throughout.mono (h : s.Throughout P) (hPQ : ∀ k, P k → Q k) : s.Throughout Q where
  working := hPQ _ h.working
  published := hPQ _ h.published
  running := fun r hr => hPQ _ (h.running r hr)
  commits := fun k hk => hPQ _ (h.commits k hk)
  seen := fun x hx => hPQ _ (h.seen x hx)

/-- **What writes and commits keep, every step keeps**, of a writer or of a reader, however an operation ends. -/
theorem Throughout.step
    (hperform : ∀ {t t' : Transaction} {cmd : Command} {answer : cmd.Answer} {now next : Stamp}, P t.space →
      (t.perform cmd).run now = .ok ((answer, t'), next) → P t'.space)
    (hcommit : ∀ (k : Keyspace) (generation : Nat), P k → P { k with generation })
    (h : s.Throughout P) (hs : Step s s') : s'.Throughout P := by
  cases hs with
  | snapshot reader =>
      exact ⟨h.working, h.published, h.running, h.commits, List.forall_mem_cons.2 ⟨h.published, h.seen⟩⟩
  | begin body idle =>
      refine ⟨h.working, h.published, fun r hr => ?_, h.commits, h.seen⟩
      obtain rfl := Option.some.inj hr
      exact h.working
  | read running =>
      refine ⟨h.working, h.published, fun r hr => ?_, h.commits, h.seen⟩
      obtain rfl := Option.some.inj hr
      have hold := h.running _ running
      exact hold
  | write running performed =>
      refine ⟨h.working, h.published, fun r hr => ?_, h.commits, h.seen⟩
      obtain rfl := Option.some.inj hr
      exact hperform (h.running _ running) performed
  | @done r answer running ends =>
      have hspace := h.running r running
      have hcommits : ∀ k ∈ (if r.changes then { r.state.space with generation := s.store.published.generation + 1 } ::
          s.commits else s.commits), P k := by
        split
        · exact List.forall_mem_cons.2 ⟨hcommit _ _ hspace, h.commits⟩
        · exact h.commits
      cases hchanged : r.state.changed with
      | true =>
          rw [Store.finish, hchanged]
          exact ⟨hcommit _ _ hspace, hcommit _ _ hspace, by simp, hcommits, h.seen⟩
      | false =>
          rw [Store.finish, hchanged]
          exact ⟨hspace, h.published, by simp, hcommits, h.seen⟩
  | fail running ends => exact ⟨h.published, h.published, by simp, h.commits, h.seen⟩

theorem Reachable.keeps {config : Config} (h : Reachable config s) : s.Throughout (Keyspace.Keeps config) := by
  induction h with
  | start =>
      have hempty := Keyspace.keeps_empty config 0
      exact ⟨hempty, hempty, by simp [Scene.start], List.forall_mem_singleton.2 hempty, by simp [Scene.start]⟩
  | step _ hs ih => exact ih.step Keyspace.Keeps.perform (fun _ generation hk => hk.regenerate generation) hs

/-- **Stored data is always admissible**, in every order of the steps of a writer and any readers: in the writer's
state, in the middle of an operation, in what is published, in every snapshot and in everything committed. -/
theorem admissible_of_reachable {config : Config} (h : Reachable config s) :
    s.Throughout (Keyspace.Admissible config) := by
  have hkeeps := h.keeps
  exact hkeeps.mono fun k hk => hk.admissible

/-- The writer may come to the end of any body that runs without a fault, and has neither kept nor given up what it
wrote. -/
theorem Reachable.ending {config : Config} (h : Reachable config s) (idle : s.running = none) {ε α : Type}
    {body : Program ε α} {result : Except ε α} {t : Transaction} {supply : Stamp}
    (hrun : (body.run { space := s.store.working }).run s.store.supply = .ok ((result, t), supply)) :
    ∃ writes, Reachable config { s with running := some ⟨ε, α, leftOver result, t, supply, writes⟩ } := by
  obtain ⟨writes, hsteps, -⟩ := run_steps hrun
    { s with running := some ⟨ε, α, body, { space := s.store.working }, s.store.supply, []⟩ } [] rfl
  exact ⟨writes, (h.step (.begin body idle)).steps hsteps⟩

/-- A script that stores a key, makes a set and gives up. -/
def makesAndGivesUp : Script Lookup.Answer Unit Unit :=
  .write (.set [97] [98]) fun _ => .write (.addMembers [99] [(.zero, [1], [])]) fun _ => .fail ()

/-- Right before it gives up there is a set with its member, and right after that there is not. -/
theorem admissible_around_rollback :
    ∃ s s' r, Reachable {} s ∧ s.running = some r ∧ r.state.space.look (.score [99] [1]) = .ok (some .zero) ∧
      Step s s' ∧ s'.store.working.look (.score [99] [1]) = .ok none ∧
      s.Throughout (Keyspace.Admissible {}) ∧ s'.Throughout (Keyspace.Admissible {}) := by
  have hempty := Keyspace.represents_empty {} 0
  have hmeets := makesAndGivesUp.program_meets (t := { space := (Store.empty {}).working }) hempty
  obtain ⟨c, hfollow, hscore⟩ : ∃ c, makesAndGivesUp.follow {} .empty = .ok (.error (), c) ∧
      c.look (.score [99] [1]) = some .zero := ⟨_, rfl, rfl⟩
  rw [hfollow] at hmeets
  obtain ⟨⟨result, t⟩, supply, hrun, rfl, ht⟩ := hmeets (Store.empty {}).supply
  have hstart : Reachable {} (start {}) := .start
  obtain ⟨writes, hreachable⟩ := hstart.ending rfl hrun
  have hfail := Step.fail (s := { start {} with running := some ⟨Unit, Unit, .fail (), t, supply, writes⟩ }) rfl rfl
  exact ⟨_, _, _, hreachable, rfl, (ht.look_eq _).trans (congrArg _ hscore), hfail, hempty.look_eq _,
    admissible_of_reachable hreachable, admissible_of_reachable (hreachable.step hfail)⟩

end Scene

end OrderedStore
