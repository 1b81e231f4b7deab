import Mathlib.Tactic
import OrderedStore.Proofs.OrderedMap.Audit
import OrderedStore.Proofs.OrderedMap.Refines

/-!
# Every version of a map is well formed

Versions of one map come about by calls and by copies: a copy is the same value, and from then on either is
written without the other. Whatever is done to whichever version, every one of them keeps the rules of a
trie, its leaves form one chain in key order, and an audit of it finds nothing.
-/

namespace OrderedStore

open Edit

variable {V : Type}

/-- A node that keeps the rules of a trie: its edges, its children and the ends it remembers. -/
structure Node.Tidy (n : Node) : Prop where
  ascending : n.edges.Pairwise fun a b => a.label < b.label
  labelled : ∀ e ∈ n.edges, e.child.segment.head? = some e.label
  branching : ∀ e ∈ n.edges, e.child.leaf.isSome ∨ 2 ≤ e.child.edges.length
  first : n.FirstBelow n.least
  last : n.LastBelow n.greatest

theorem Node.Regular.tidy {n : Node} (h : n.Regular) : n.Tidy where
  ascending := h.ascending
  labelled := fun _ he => (h.edge he).labelled
  branching := fun _ he => (h.edge he).needed
  first := h.firstBelow
  last := h.lastBelow

namespace OrderedMap

/-- What is always true of a map: of every node of its trie, of the leaves and their keys, of the chain and
of the counts. -/
structure Wellformed (m : OrderedMap V) : Prop where
  rootSegment : m.trie.root.segment = []
  tidy : ∀ path n, m.trie.root.Reaches path n → n.Tidy
  /-- Every leaf is live and has the key that its path spells. -/
  placed : ∀ path link, m.trie.root.LeafAt path link → ∃ leaf, m.leaves.get link = .ok leaf ∧ leaf.key = path
  /-- The chain has every leaf once, in key order, from the first leaf of the root to the last. -/
  chain : ∃ es : List (Entry V), m.leaves.Strand none es none ∧ Entry.Ordered es ∧ (es.map Entry.id).Nodup ∧
    Entry.first es = m.trie.root.least ∧ Entry.last es = m.trie.root.greatest ∧
    ∀ path id, m.trie.root.LeafAt path (some id) ↔ ∃ e ∈ es, e.key = path ∧ e.id = id
  /-- Between live leaves, the links back are the inverse of the links on. -/
  inverse : ∀ a b x y, m.leaves.leaf? a = some x → m.leaves.leaf? b = some y →
    (x.next = some b ↔ y.prev = some a)
  counted : m.size = m.trie.root.leafCount
  live : m.leaves.live = m.size

theorem Holds.wellformed {m : OrderedMap V} {es : List (Entry V)} (h : m.Holds es) : m.Wellformed where
  rootSegment := h.trie.path
  tidy := fun _ _ hr => (h.trie.regular.reaches hr).tidy
  placed := h.trie.placed h.chained_alone
  chain := by
    refine ⟨es, h.chained.strand, h.trie.ordered, h.chained.nodup, h.trie.first_eq.symm, h.trie.last_eq.symm, ?_⟩
    intro path id
    rw [h.trie.leafAt_iff]
    simp only [Option.some.injEq]
  inverse := by
    intro a b x y hx hy
    -- a pool that counts as many leaves as the chain has holds no others
    have ha := h.chained.mem_of_live h.live (by rw [hx]; rfl)
    have hb := h.chained.mem_of_live h.live (by rw [hy]; rfl)
    exact h.chained.next_iff_prev ha hb hx hy
  counted := by rw [Node.leafCount_eq, h.trie.listing, h.size_eq, Entry.listed, List.length_map]
  live := by rw [h.live, h.size_eq]

/-! ## Versions -/

/-- Something done to one of several versions: a call that writes it, or a copy. A version that is not there
is left alone. -/
inductive Move (V : Type)
  | call (version : Nat) (call : Call V)
  | copy (version : Nat)

/-- Make one move. A copy becomes the last version. -/
def move (versions : List (OrderedMap V)) : Move V → Edit (List (OrderedMap V))
  | .call i call =>
    match versions[i]? with
    | none => return versions
    | some m => do
      let (_, m) ← m.perform call
      return versions.set i m
  | .copy i => return versions ++ versions[i]?.toList

/-- Make moves one after the other. -/
def moves (versions : List (OrderedMap V)) : List (Move V) → Edit (List (OrderedMap V))
  | [] => return versions
  | step :: steps => do
    let versions ← move versions step
    moves versions steps

/-- Every one of the versions represents some finite map. -/
def AllRepresent (versions : List (OrderedMap V)) : Prop := ∀ m ∈ versions, ∃ s, Represents m.keyLimit m s

/-- What an edit of versions comes to: versions that all represent finite maps, or the end of the pool. -/
def Ends (result : Except Fault (List (OrderedMap V) × Stamp)) : Prop :=
  match result with
  | .ok (versions, _) => AllRepresent versions
  | .error fault => fault = .poolExhausted

/-- Only a pool without room makes a finite map fault. -/
theorem answer_exhausted {limit : Nat} {s : FiniteMap V} (call : Call V) :
    ExhaustedOnly (Pool.slotLimit ≤ s.card) (s.answer limit call) := by
  cases call with
  | insert key value =>
      rw [FiniteMap.answer]
      split
      · exact ExhaustedOnly.ok
      · split
        · rename_i hfull
          exact ExhaustedOnly.error hfull.2
        · exact ExhaustedOnly.ok
  | modify key f => exact ExhaustedOnly.ok
  | erase key => exact ExhaustedOnly.ok
  | eraseUnder start => exact ExhaustedOnly.ok
  | clear => exact ExhaustedOnly.ok

theorem AllRepresent.move {versions : List (OrderedMap V)} (h : AllRepresent versions) (step : Move V)
    (now : Stamp) : Ends ((move versions step).run now) := by
  cases step with
  | copy i =>
      intro m hm
      rcases List.mem_append.1 hm with hm | hm
      · exact h m hm
      · exact h m (List.mem_of_getElem? (Option.mem_toList.1 hm))
  | call i call =>
      unfold OrderedMap.move
      dsimp only
      cases hi : versions[i]? with
      | none => exact h
      | some m =>
          obtain ⟨s, hs⟩ := h m (List.mem_of_getElem? hi)
          have hmeets := hs.meets call
          cases hanswer : s.answer m.keyLimit call with
          | error fault =>
              rw [hanswer] at hmeets
              dsimp only
              rw [run_bind_error (hmeets now)]
              exact (answer_exhausted call).faultsOnly fault hanswer
          | ok result =>
              rw [hanswer] at hmeets
              obtain ⟨⟨reply, m'⟩, next, hrun, -, hm'⟩ := hmeets now
              dsimp only
              rw [run_bind_ok hrun]
              intro x hx
              -- the version that was written is new, the others are the same values as before
              rcases List.mem_or_eq_of_mem_set hx with hx | rfl
              · exact h x hx
              · exact ⟨_, rfl, hm'.2⟩

theorem AllRepresent.moves {versions : List (OrderedMap V)} (h : AllRepresent versions) (steps : List (Move V))
    (now : Stamp) : Ends ((moves versions steps).run now) := by
  induction steps generalizing versions now with
  | nil => exact h
  | cons step steps ih =>
      have hstep := h.move step now
      rw [OrderedMap.moves]
      cases hrun : (OrderedMap.move versions step).run now with
      | error fault =>
          rw [hrun] at hstep
          rw [run_bind_error hrun]
          exact hstep
      | ok result =>
          rw [hrun] at hstep
          rw [run_bind_ok hrun]
          exact ih hstep result.2

/-- **Every version is well formed and passes its audit**, for every run of calls and copies that starts from
a fresh map. The only fault on the way is a pool without room. -/
theorem moves_wellformed (limit : Nat) (stamp now : Stamp) (steps : List (Move V)) :
    match (moves [empty V stamp limit] steps).run now with
    | .ok (versions, _) => ∀ m ∈ versions, m.Wellformed ∧ m.issues = .ok []
    | .error fault => fault = .poolExhausted := by
  have hfresh : AllRepresent [empty V stamp limit] := by
    intro m hm
    rw [List.mem_singleton.1 hm]
    exact ⟨_, represents_empty stamp limit⟩
  have hend := hfresh.moves steps now
  cases hrun : (moves [empty V stamp limit] steps).run now with
  | error fault =>
      rw [hrun] at hend
      exact hend
  | ok result =>
      rw [hrun] at hend
      intro m hm
      obtain ⟨s, -, es, hm, -⟩ := hend m hm
      exact ⟨hm.wellformed, hm.issues_eq⟩

end OrderedMap

end OrderedStore
