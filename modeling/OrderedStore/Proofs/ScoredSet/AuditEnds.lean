import OrderedStore.Damage.ScoredSet
import OrderedStore.Proofs.ScoredSet.Refines
import OrderedStore.Proofs.Walk.Circles
import OrderedStore.ScoredSet.Audit

/-!
# When an audit of a scored set comes to its end

An audit follows links in three ways. Along the chain of a trie and along the chain through all buckets it counts its
steps and stops when there are too many. Over the buckets, and over the members of each bucket, it walks from a first
leaf to a last one without counting, and that is where it can go on for ever: on a chain that leads round and past
the last leaf of a bucket, which is just what an audit is there to report.

These walks are the only thing that can keep an audit from its end. Otherwise it reports what it found, or stops at a
link to no leaf or at a score that is no number.
-/

namespace OrderedStore

variable {V : Type}

/-- The faults at which an audit stops: a link to no leaf, and a score that is no number. -/
def Fault.StopsAudit : Fault → Prop
  | .dangling _ | .unorderedScore => True
  | _ => False

open Fault (StopsAudit)

/-! ## What is counted comes to an end -/

theorem Pool.get_stops (p : Pool V) (link : Link) : FaultsOnly StopsAudit (p.get link) :=
  Pool.get_faults fun _ => trivial

theorem Pool.nextOf_stops (p : Pool V) (link : Link) : FaultsOnly StopsAudit (p.nextOf link) :=
  Pool.nextOf_faults fun _ => trivial

theorem Pool.prevOf_stops (p : Pool V) (link : Link) : FaultsOnly StopsAudit (p.prevOf link) :=
  Pool.prevOf_faults fun _ => trivial

theorem ScoreKey.ofScore_stops (x : Binary64) : FaultsOnly StopsAudit (ScoreKey.ofScore x) := by
  unfold ScoreKey.ofScore
  cases x.isNaN with
  | true => exact FaultsOnly.error trivial
  | false => exact FaultsOnly.ok

theorem FaultsOnly.listMapM {α β : Type} {F : Fault → Prop} {f : α → Except Fault β} {l : List α}
    (hf : ∀ a ∈ l, FaultsOnly F (f a)) : FaultsOnly F (l.mapM f) := by
  induction l with
  | nil => exact FaultsOnly.ok
  | cons a l ih =>
      rw [List.mapM_cons]
      refine (hf a List.mem_cons_self).bind fun b => ?_
      exact (ih fun a ha => hf a (List.mem_cons_of_mem _ ha)).bind fun bs => FaultsOnly.ok

theorem Node.ownIssues_stops (leaves : Pool V) (isRoot : Bool) (path : Bytes) (n : Node) :
    FaultsOnly StopsAudit (n.ownIssues leaves isRoot path) := by
  unfold Node.ownIssues
  dsimp only
  cases n.leaf with
  | none => exact FaultsOnly.ok
  | some id => exact (leaves.get_stops id).bind fun _ => FaultsOnly.ok

theorem Node.issues_stops (leaves : Pool V) (isRoot : Bool) (above : Bytes) (n : Node) :
    FaultsOnly StopsAudit (n.issues leaves isRoot above) := by
  rw [Node.issues]
  refine (n.ownIssues_stops leaves isRoot _).bind fun own => ?_
  refine FaultsOnly.bind (FaultsOnly.listMapM fun e _ => ?_) fun _ => FaultsOnly.ok
  exact e.1.child.issues_stops leaves false _
termination_by sizeOf n
decreasing_by exact Node.sizeOf_child_lt e.2

theorem Trie.linkIssues_stops (leaves : Pool V) (current next : Link) :
    FaultsOnly StopsAudit (Trie.linkIssues leaves current next) :=
  (leaves.get_stops current).bind fun _ => (leaves.get_stops next).bind fun _ => FaultsOnly.ok

theorem Trie.chainIssues_stops (leaves : Pool V) (size : Nat) (last : Link) (room seen : Nat) (current : Link) :
    FaultsOnly StopsAudit (Trie.chainIssues leaves size last room seen current) := by
  induction room generalizing seen current with
  | zero =>
      unfold Trie.chainIssues
      split
      · exact FaultsOnly.ok
      · refine (leaves.nextOf_stops current).bind fun next => ?_
        split
        · exact FaultsOnly.ok
        · exact (Trie.linkIssues_stops leaves current next).bind fun _ => FaultsOnly.ok
  | succ room ih =>
      unfold Trie.chainIssues
      split
      · exact FaultsOnly.ok
      · refine (leaves.nextOf_stops current).bind fun next => ?_
        split
        · exact FaultsOnly.ok
        · exact (Trie.linkIssues_stops leaves current next).bind fun _ => (ih _ next).bind fun _ => FaultsOnly.ok

theorem Trie.issues_stops (t : Trie) (leaves : Pool V) : FaultsOnly StopsAudit (t.issues leaves) := by
  unfold Trie.issues
  refine (t.root.issues_stops leaves true []).bind fun nodes => ?_
  dsimp only
  split
  · exact FaultsOnly.ok
  · exact (Trie.chainIssues_stops leaves _ _ _ _ _).bind fun _ => FaultsOnly.ok

namespace OrderedMap

variable {m : OrderedMap V}

theorem leafAt_stops (link : Link) : FaultsOnly StopsAudit (m.leafAt link) := by
  unfold leafAt
  split
  · exact FaultsOnly.ok
  · exact (m.leaves.get_stops link).bind fun _ => FaultsOnly.ok

theorem get?_stops (key : Bytes) : FaultsOnly StopsAudit (m.get? key) := by
  unfold get?
  cases m.trie.find? key with
  | none => exact FaultsOnly.ok
  | some link =>
      refine FaultsOnly.bind ?_ fun _ => FaultsOnly.ok
      exact (m.leaves.get_stops link).bind fun _ => FaultsOnly.ok

theorem issues_stops : FaultsOnly StopsAudit m.issues :=
  (m.trie.issues_stops m.leaves).bind fun _ => (leafAt_stops _).bind fun _ => (leafAt_stops _).bind fun _ =>
    FaultsOnly.ok

end OrderedMap

namespace ScoredSet

variable {z : ScoredSet V}

theorem memberIssues_stops (key : ScoreKey) (leaf : Leaf (Scored V)) :
    FaultsOnly StopsAudit (z.memberIssues key leaf) := by
  refine (ScoreKey.ofScore_stops _).bind fun own => ?_
  refine (OrderedMap.get?_stops leaf.key).bind fun indexed => ?_
  cases indexed with
  | none => exact FaultsOnly.ok
  | some indexed => exact FaultsOnly.ok

theorem ends?_stops : FaultsOnly StopsAudit z.ends? := by
  refine (OrderedMap.leafAt_stops _).bind fun lowest => ?_
  cases lowest with
  | none => exact FaultsOnly.ok
  | some lowest =>
      dsimp only
      cases lowest.value.first with
      | none => exact FaultsOnly.ok
      | some first =>
          refine (OrderedMap.leafAt_stops _).bind fun highest => ?_
          cases highest with
          | none => exact FaultsOnly.ok
          | some highest =>
              dsimp only
              cases highest.value.last with
              | none => exact FaultsOnly.ok
              | some last => exact FaultsOnly.ok

theorem linkIssues_stops (current next : Link) : FaultsOnly StopsAudit (z.linkIssues current next) := by
  refine (z.chain.get_stops next).bind fun there => (z.chain.get_stops current).bind fun here => ?_
  refine FaultsOnly.bind ?_ fun ordered => FaultsOnly.ok
  exact (ScoreKey.ofScore_stops _).bind fun _ => (ScoreKey.ofScore_stops _).bind fun _ => FaultsOnly.ok

theorem followChain_stops (room visited : Nat) (current : Link) :
    FaultsOnly StopsAudit (z.followChain room visited current) := by
  induction room generalizing visited current with
  | zero =>
      refine (z.chain.nextOf_stops current).bind fun next => ?_
      split
      · exact FaultsOnly.ok
      · exact (linkIssues_stops current next).bind fun _ => FaultsOnly.ok
  | succ room ih =>
      refine (z.chain.nextOf_stops current).bind fun next => ?_
      split
      · exact FaultsOnly.ok
      · exact (linkIssues_stops current next).bind fun _ => (ih _ next).bind fun _ => FaultsOnly.ok

theorem chainIssues_stops : FaultsOnly StopsAudit z.chainIssues := by
  refine ends?_stops.bind fun ends => ?_
  cases ends with
  | none => exact FaultsOnly.ok
  | some ends =>
      exact (z.chain.prevOf_stops ends.1).bind fun _ => (followChain_stops _ _ _).bind fun _ => FaultsOnly.ok

/-! ## Walks over the buckets and their members -/

/-- The members that an audit of a bucket walks over. -/
def bucketSpan (bucket : Trie) : Span := .between bucket.first bucket.last

/-- The audit of a bucket comes to its members and goes round among them for ever. -/
def GoesRoundIn (z : ScoredSet V) (entry : Leaf Trie) : Prop :=
  ∃ key, ScoreKey.ofBytes? entry.key = some key ∧ entry.value.isEmpty = false ∧
    Succeeds (entry.value.issues z.chain) ∧ (bucketSpan entry.value).GoesOn z.chain (z.memberIssues key)

/-- The audit never comes to its end: it gets through the map by member, and then it goes round among the buckets or,
in some bucket that it comes to, among the members. -/
def NeverEnds (z : ScoredSet V) : Prop :=
  Succeeds z.byMember.issues ∧
    ((bucketSpan z.buckets.trie).GoesOn z.buckets.leaves z.bucketIssues ∨
      ∃ n s t entry, Span.Passes z.buckets.leaves z.bucketIssues n (bucketSpan z.buckets.trie) s ∧
        s.next z.buckets.leaves = .ok (some (entry, t)) ∧ z.GoesRoundIn entry)

section Endless

variable {α β : Type} {x : Except Fault α} {f : α → Except Fault β}

/-- If what is done first comes to its end, it is what is left that does not. -/
theorem bind_endless_iff (hx : FaultsOnly StopsAudit x) :
    x >>= f = .error .endless ↔ ∃ a, x = .ok a ∧ f a = .error .endless := by
  cases x with
  | ok a =>
      constructor
      · intro h
        exact ⟨a, rfl, h⟩
      · intro h
        obtain ⟨a', ha, hf⟩ := h
        cases ha
        exact hf
  | error fault =>
      constructor
      · intro h
        cases h
        exact (hx _ rfl).elim
      · intro h
        obtain ⟨a, ha, -⟩ := h
        cases ha

/-- If what is left comes to its end, it is what is done first that does not. -/
theorem bind_endless_iff_left (hf : ∀ a, FaultsOnly StopsAudit (f a)) :
    x >>= f = .error .endless ↔ x = .error .endless := by
  cases x with
  | ok a =>
      constructor
      · intro h
        exact (hf a _ h).elim
      · intro h
        cases h
  | error fault =>
      constructor
      · intro h
        cases h
        rfl
      · intro h
        cases h
        rfl

end Endless

/-- A bucket keeps the audit from its end just if the audit goes round among its members. -/
theorem bucketIssues_endless_iff {entry : Leaf Trie} :
    z.bucketIssues entry = .error .endless ↔ z.GoesRoundIn entry := by
  unfold bucketIssues GoesRoundIn
  cases hkey : ScoreKey.ofBytes? entry.key with
  | none => exact ⟨nofun, nofun⟩
  | some key =>
      dsimp only
      cases hempty : entry.value.isEmpty with
      | true =>
          constructor
          · exact nofun
          · intro h
            obtain ⟨_, -, hfull, -⟩ := h
            cases hfull
      | false =>
          have hmembers : ∀ g : List (List Issue) → List Issue × Nat,
              ((z.walkBetween entry.value.first entry.value.last).mapM (z.memberIssues key) >>= fun found =>
                .ok (g found)) = .error .endless ↔
                  (bucketSpan entry.value).GoesOn z.chain (z.memberIssues key) := by
            intro g
            refine (bind_endless_iff_left fun _ => FaultsOnly.ok).trans ?_
            refine Span.mapM_eq_endless_iff.trans (or_iff_left ?_)
            intro h
            obtain ⟨_, _, _, leaf, -, -, hnever⟩ := h
            exact memberIssues_stops key leaf _ hnever
          rw [if_neg Bool.false_ne_true, bind_endless_iff (entry.value.issues_stops z.chain)]
          constructor
          · intro h
            obtain ⟨inTrie, hin, hwalk⟩ := h
            exact ⟨key, rfl, rfl, ⟨inTrie, hin⟩, (hmembers _).1 hwalk⟩
          · intro h
            obtain ⟨key', hsame, -, ⟨inTrie, hin⟩, hwalk⟩ := h
            cases hsame
            exact ⟨inTrie, hin, (hmembers _).2 hwalk⟩

theorem bucketIssues_faults (entry : Leaf Trie) :
    FaultsOnly (fun fault => fault = .endless ∨ StopsAudit fault) (z.bucketIssues entry) := by
  unfold bucketIssues
  cases ScoreKey.ofBytes? entry.key with
  | none => exact FaultsOnly.ok
  | some key =>
      dsimp only
      split
      · exact FaultsOnly.ok
      · refine FaultsOnly.bind (fun fault h => .inr (entry.value.issues_stops z.chain fault h)) fun _ => ?_
        refine FaultsOnly.bind ?_ fun _ => FaultsOnly.ok
        exact Span.trace_faults (.inl rfl) (fun _ => .inr trivial)
          (fun leaf fault h => .inr (memberIssues_stops key leaf fault h)) _

/-- What comes after the buckets has no walk without an end. -/
theorem issues_endless_iff : z.issues = .error .endless ↔
    Succeeds z.byMember.issues ∧ z.buckets.walk.mapM z.bucketIssues = .error .endless := by
  unfold issues
  rw [bind_endless_iff OrderedMap.issues_stops]
  constructor
  · intro h
    obtain ⟨inMap, hin, hwalk⟩ := h
    refine ⟨⟨inMap, hin⟩, (bind_endless_iff_left fun found => ?_).1 hwalk⟩
    exact chainIssues_stops.bind fun _ => FaultsOnly.ok
  · intro h
    obtain ⟨⟨inMap, hin⟩, hwalk⟩ := h
    refine ⟨inMap, hin, (bind_endless_iff_left fun found => ?_).2 hwalk⟩
    exact chainIssues_stops.bind fun _ => FaultsOnly.ok

theorem issues_faults : FaultsOnly (fun fault => fault = .endless ∨ StopsAudit fault) z.issues := by
  refine FaultsOnly.bind (fun fault h => .inr (OrderedMap.issues_stops fault h)) fun _ => ?_
  refine FaultsOnly.bind ?_ fun _ => ?_
  · exact Span.trace_faults (.inl rfl) (fun _ => .inr trivial) bucketIssues_faults _
  · exact FaultsOnly.bind (fun fault h => .inr (chainIssues_stops fault h)) fun _ => FaultsOnly.ok

theorem issues_endless_iff_neverEnds : z.issues = .error .endless ↔ z.NeverEnds := by
  have hwalk : z.buckets.walk.mapM z.bucketIssues = .error .endless ↔ _ := Span.mapM_eq_endless_iff
  rw [issues_endless_iff, NeverEnds]
  simp only [hwalk, bucketIssues_endless_iff]
  rfl

/-- **An audit comes to its end or goes round for ever.** It goes round just if it comes to a walk that does, over
the buckets or over the members of one of them. Otherwise it reports what it found, or stops at a link to no leaf or
at a score that is no number. -/
theorem issues_end_or_go_round (z : ScoredSet V) :
    (z.issues = .error .endless ↔ z.NeverEnds) ∧
      (¬ z.NeverEnds ↔ (∃ found, z.issues = .ok found) ∨ (∃ link, z.issues = .error (.dangling link)) ∨
        z.issues = .error .unorderedScore) := by
  refine ⟨issues_endless_iff_neverEnds, ?_⟩
  rw [← issues_endless_iff_neverEnds]
  cases hissues : z.issues with
  | ok found => exact iff_of_true nofun (.inl ⟨found, rfl⟩)
  | error fault =>
      rcases issues_faults fault hissues with rfl | hstops
      · exact iff_of_false (fun h => h rfl) (by simp)
      · cases fault with
        | dangling link => exact iff_of_true nofun (.inr (.inl ⟨link, rfl⟩))
        | unorderedScore => exact iff_of_true nofun (.inr (.inr rfl))
        | _ => exact hstops.elim

/-- Write one part of a set. -/
def damageOne (z : ScoredSet Nat) (d : SetDamage) : Edit (Unit × ScoredSet Nat) := return ((), ← z.damage 0 d)

/-- Three members of one score, the second of which leads back to the first. -/
def circled : ScoredSet Nat :=
  afterAll damageOne
    (afterAll perform { byMember := OrderedMap.empty (Scored Nat) 0 8, buckets := OrderedMap.empty Trie 1 } 2
      [.insertAll [(.zero, [97], 1), (.zero, [98], 2), (.zero, [99], 3)]]) 40
    [.chain (.setNext (some ⟨1⟩) (some ⟨0⟩))]

/-- The audit of a set that is damaged in one link goes round for ever. -/
theorem circled_neverEnds : circled.issues = .error .endless ∧ circled.NeverEnds := by
  have hissues : circled.issues = .error .endless := by decide +kernel
  exact ⟨hissues, issues_endless_iff_neverEnds.1 hissues⟩

end ScoredSet

end OrderedStore
