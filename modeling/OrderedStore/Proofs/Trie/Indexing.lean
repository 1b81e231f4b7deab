import Mathlib.Tactic
import OrderedStore.Proofs.Edit
import OrderedStore.Proofs.Trie.Cover
import OrderedStore.Proofs.Trie.Longest

/-!
# Positions in range

The descents read edges and bytes by position and cut keys at positions, and a position past the end would read
as nothing. Here each of them is written once more with every position checked, so that one past the end is a
fault. On every node, sound or not, the checked descents come to the same as the others: an edge is read where
the bisection found one, and a key is cut where it agrees with a segment.
-/

namespace OrderedStore

open Edit

/-! ## Checked positions -/

/-- The element at a position. Past the end there is none. -/
def itemAt {α : Type} (l : List α) (i : Nat) : Except Fault α :=
  match l[i]? with
  | some a => .ok a
  | none => .error (.outOfRange i l.length)

/-- The bytes up to a position, which may be the end. -/
def takeAt (s : Bytes) (i : Nat) : Except Fault Bytes :=
  if i ≤ s.length then .ok (s.take i) else .error (.outOfRange i s.length)

/-- The bytes from a position on, which may be the end. -/
def dropAt (s : Bytes) (i : Nat) : Except Fault Bytes :=
  if i ≤ s.length then .ok (s.drop i) else .error (.outOfRange i s.length)

/-- The list with an element put in front of a position, which may be the end. -/
def insertAt {α : Type} (l : List α) (i : Nat) (a : α) : Except Fault (List α) :=
  if i ≤ l.length then .ok (l.insertIdx i a) else .error (.outOfRange i l.length)

theorem itemAt_ok {α : Type} {l : List α} {i : Nat} {a : α} (h : l[i]? = some a) : itemAt l i = .ok a := by
  unfold itemAt
  rw [h]

/-- An element together with the list that it comes from. -/
theorem itemAt_attach {α : Type} {l : List α} {i : Nat} {a : α} (h : l[i]? = some a) :
    itemAt l.attach i = .ok ⟨a, List.mem_of_getElem? h⟩ := by
  refine itemAt_ok ?_
  rw [List.getElem?_attach, Option.pmap_eq_some_iff]
  exact ⟨a, List.mem_of_getElem? h, h, rfl⟩

theorem takeAt_ok {s : Bytes} {i : Nat} (h : i ≤ s.length) : takeAt s i = .ok (s.take i) := if_pos h

theorem dropAt_ok {s : Bytes} {i : Nat} (h : i ≤ s.length) : dropAt s i = .ok (s.drop i) := if_pos h

theorem insertAt_ok {α : Type} {l : List α} {i : Nat} {a : α} (h : i ≤ l.length) :
    insertAt l i a = .ok (l.insertIdx i a) := if_pos h

namespace Bytes

variable {head s : Bytes}

theorem after?_eq (head s : Bytes) : after? head s = if starts head s then some (s.drop head.length) else none := by
  unfold starts
  cases hafter : after? head s with
  | none => rfl
  | some rest =>
      rw [after?_eq_some_iff.1 hafter, List.drop_left]
      rfl

/-- Two strings agree on all of the first exactly if the second starts with it. -/
theorem agreement_eq_length_iff : agreement head s = head.length ↔ starts head s = true := by
  unfold starts
  fun_induction agreement head s with
  | case1 a as bs ih => simpa [after?] using ih
  | case2 a as b bs hne => simp [after?, hne]
  | case3 head s hnil =>
      cases head with
      | nil => simp [after?]
      | cons a as =>
          cases s with
          | nil => simp [after?]
          | cons b bs => exact absurd rfl (hnil a as b bs rfl)

/-- What comes first is decided by the first bytes that differ, or by the string that ends there. -/
theorem lt_iff_of_agreement (hlt : agreement head s < head.length) :
    s < head ↔ agreement head s = s.length ∨
      ∃ a b, s[agreement head s]? = some a ∧ head[agreement head s]? = some b ∧ a < b := by
  fun_induction agreement head s with
  | case1 a as bs ih =>
      rw [List.length_cons] at hlt ⊢
      rw [List.cons_lt_cons_iff]
      have hrest := ih (by omega)
      simp [hrest]
  | case2 a as b bs hne =>
      rw [List.cons_lt_cons_iff]
      simp [Ne.symm hne]
  | case3 head s hnil =>
      cases head with
      | nil => simp at hlt
      | cons a as =>
          cases s with
          | nil => simp
          | cons b bs => exact absurd rfl (hnil a as b bs rfl)

/-- Whether a string ends at a position or has a smaller byte there than another one. -/
def partsBelow (s other : Bytes) (i : Nat) : Except Fault Bool := do
  if i = s.length then return true
  return decide ((← itemAt s i) < (← itemAt other i))

theorem partsBelow_eq (hlt : agreement head s < head.length) :
    partsBelow s head (agreement head s) = .ok (decide (s < head)) := by
  have hiff := lt_iff_of_agreement hlt
  have hle := agreement_le_right head s
  unfold partsBelow
  by_cases hend : agreement head s = s.length
  · rw [if_pos hend, decide_eq_true (hiff.2 (Or.inl hend))]
    rfl
  · have hx := List.getElem?_eq_getElem (Nat.lt_of_le_of_ne hle hend)
    have hy := List.getElem?_eq_getElem hlt
    rw [hx, hy] at hiff
    rw [if_neg hend, itemAt_ok hx, itemAt_ok hy, ok_bind, ok_bind]
    refine congrArg Except.ok (decide_eq_decide.2 ?_)
    rw [hiff, or_iff_right hend]
    simp

end Bytes

namespace Edge

variable {α : Type}

/-- The bisection stays among the edges, in whatever order they are. -/
theorem narrow_lt (edges : List (Edge α)) (label : UInt8) {base size : Nat} (hpos : 0 < size)
    (hfits : base + size ≤ edges.length) : narrow edges label base size < edges.length := by
  induction size using Nat.strongRecOn generalizing base with
  | ind size ih =>
    rw [narrow]
    split
    · omega
    · dsimp only
      split
      · exact ih (size - size / 2) (by omega) (by omega) (by omega)
      · exact ih (size - size / 2) (by omega) (by omega) (by omega)

/-- **A label is on an edge or in front of a position among them.** -/
theorem locate_range (edges : List (Edge α)) (label : UInt8) :
    (∃ i e, locate edges label = .on i ∧ edges[i]? = some e) ∨
      ∃ i, locate edges label = .before i ∧ i ≤ edges.length := by
  unfold locate
  generalize hspot : narrow edges label 0 edges.length = i
  dsimp only
  cases hedge : edges[i]? with
  | none =>
      refine Or.inr ⟨i, rfl, ?_⟩
      rcases Nat.eq_zero_or_pos edges.length with hzero | hpos
      · -- without edges the bisection has not moved
        rw [narrow, if_pos (by omega)] at hspot
        omega
      · exact hspot ▸ Nat.le_of_lt (narrow_lt edges label hpos (by omega))
  | some e =>
      obtain ⟨hlt, -⟩ := List.getElem?_eq_some_iff.1 hedge
      dsimp only
      split
      · exact Or.inl ⟨i, e, rfl, hedge⟩
      · split
        · exact Or.inr ⟨i + 1, rfl, hlt⟩
        · exact Or.inr ⟨i, rfl, Nat.le_of_lt hlt⟩

theorem index_le (edges : List (Edge α)) (label : UInt8) : (locate edges label).index ≤ edges.length := by
  rcases locate_range edges label with ⟨i, e, hspot, hedge⟩ | ⟨i, hspot, hle⟩
  · rw [hspot]
    exact Nat.le_of_lt (List.getElem?_eq_some_iff.1 hedge).1
  · rw [hspot]
    exact hle

/-- The edge with a label, read at the position where the bisection found it. -/
def checkedFind (edges : List (Edge α)) (label : UInt8) : Except Fault (Option {e // e ∈ edges}) :=
  match locate edges label with
  | .before _ => .ok none
  | .on i => some <$> itemAt edges.attach i

theorem checkedFind_eq (edges : List (Edge α)) (label : UInt8) :
    ∃ found, checkedFind edges label = .ok found ∧ child? edges label = found.map fun e => e.1.child := by
  unfold checkedFind child?
  rcases locate_range edges label with ⟨i, e, hspot, hedge⟩ | ⟨i, hspot, -⟩
  · rw [hspot]
    dsimp only
    rw [itemAt_attach hedge, hedge]
    exact ⟨_, rfl, rfl⟩
  · rw [hspot]
    exact ⟨none, rfl, rfl⟩

end Edge

/-! ## Searches -/

namespace Node

/-- Look a key up, with every position checked. -/
def checkedFind? (n : Node) (rest : Bytes) : Except Fault (Option Link) := do
  if rest = [] then return n.leaf
  match ← Edge.checkedFind n.edges (← itemAt rest 0) with
  | none => return none
  | some ⟨e, _h⟩ =>
    if Bytes.starts e.child.segment rest then e.child.checkedFind? (← dropAt rest e.child.segment.length)
    else return none
termination_by sizeOf n
decreasing_by exact sizeOf_child_lt _h

/-- The last leaf to the left of a position among edges. -/
def checkedLeft (edges : List (Edge Node)) (i : Nat) : Except Fault (Option Link) :=
  if i = 0 then .ok none else do return some (← itemAt edges (i - 1)).child.greatest

/-- The leaves next to a key, with every position checked. -/
def checkedNeighbors (n : Node) (rest : Bytes) (seen : Neighbors) : Except Fault Neighbors := do
  if rest = [] then return { seen with above := (n.edges.head?.map (·.child.least)).or seen.above }
  let b ← itemAt rest 0
  let i := (Edge.locate n.edges b).index
  let below := (← checkedLeft n.edges i).or (n.leaf.or seen.below)
  match ← Edge.checkedFind n.edges b with
  | none => return ⟨below, (n.edges[i]?.map (·.child.least)).or seen.above⟩
  | some ⟨e, _h⟩ =>
    let above := (n.edges[i + 1]?.map (·.child.least)).or seen.above
    let common := Bytes.agreement e.child.segment rest
    if common = e.child.segment.length then e.child.checkedNeighbors (← dropAt rest common) ⟨below, above⟩
    else if ← Bytes.partsBelow rest e.child.segment common then return ⟨below, some e.child.least⟩
    else return ⟨some e.child.greatest, above⟩
termination_by sizeOf n
decreasing_by exact sizeOf_child_lt _h

/-- The node that covers some bytes, with every position checked. -/
def checkedCovering? (n : Node) (rest : Bytes) : Except Fault (Option Node) := do
  if rest = [] then return some n
  match ← Edge.checkedFind n.edges (← itemAt rest 0) with
  | none => return none
  | some ⟨e, _h⟩ =>
    if Bytes.starts rest e.child.segment then return some e.child
    if Bytes.starts e.child.segment rest then e.child.checkedCovering? (← dropAt rest e.child.segment.length)
    else return none
termination_by sizeOf n
decreasing_by exact sizeOf_child_lt _h

/-- The deepest leaf on the way of a key, with every position checked. -/
def checkedLongest? (n : Node) (rest : Bytes) (seen : Option Link) : Except Fault (Option Link) := do
  let seen := n.leaf.or seen
  if rest = [] then return seen
  match ← Edge.checkedFind n.edges (← itemAt rest 0) with
  | none => return seen
  | some ⟨e, _h⟩ =>
    if Bytes.starts e.child.segment rest then e.child.checkedLongest? (← dropAt rest e.child.segment.length) seen
    else return seen
termination_by sizeOf n
decreasing_by exact sizeOf_child_lt _h

variable {n : Node} {b : UInt8} {bs : Bytes}

/-- What is left of a key behind a segment that it goes through, cut at a checked position. -/
theorem dropAt_segment {segment rest : Bytes} (h : Bytes.starts segment rest = true) :
    dropAt rest segment.length = .ok (rest.drop segment.length) :=
  dropAt_ok (Bytes.starts_iff.1 h).length_le

/-- **A look-up reads no position out of range**, by induction on the node. -/
theorem checkedFind?_eq (n : Node) (rest : Bytes) : n.checkedFind? rest = .ok (n.find? rest) := by
  rw [checkedFind?]
  cases rest with
  | nil =>
      rw [if_pos rfl, find?]
      rfl
  | cons b bs =>
      obtain ⟨found, hfound, hchild⟩ := Edge.checkedFind_eq n.edges b
      have hb : itemAt (b :: bs) 0 = .ok b := rfl
      rw [if_neg (List.cons_ne_nil b bs), hb, ok_bind, hfound, ok_bind]
      cases found with
      | none =>
          rw [find?_of_none hchild]
          rfl
      | some e =>
          obtain ⟨e, he⟩ := e
          rw [find?_of_some hchild, Bytes.after?_eq]
          dsimp only
          cases hstarts : Bytes.starts e.child.segment (b :: bs) with
          | false => rfl
          | true =>
              rw [dropAt_segment hstarts]
              exact e.child.checkedFind?_eq _
termination_by sizeOf n
decreasing_by exact sizeOf_child_lt he

theorem checkedLeft_eq {edges : List (Edge Node)} {i : Nat} (h : i ≤ edges.length) :
    checkedLeft edges i = .ok (if i = 0 then none else edges[i - 1]?.map (·.child.greatest)) := by
  unfold checkedLeft
  by_cases hzero : i = 0
  · rw [if_pos hzero, if_pos hzero]
  · have hedge : edges[i - 1]? = some edges[i - 1] := List.getElem?_eq_getElem (by omega)
    rw [if_neg hzero, if_neg hzero, itemAt_ok hedge, hedge]
    rfl

theorem neighbors_of_none (hc : n.child? b = none) (bs : Bytes) (seen : Neighbors) :
    n.neighbors (b :: bs) seen =
      ⟨(if (Edge.locate n.edges b).index = 0 then none
          else n.edges[(Edge.locate n.edges b).index - 1]?.map (·.child.greatest)).or (n.leaf.or seen.below),
        (n.edges[(Edge.locate n.edges b).index]?.map (·.child.least)).or seen.above⟩ := by
  rw [neighbors]
  split
  · rfl
  · simp_all

theorem neighbors_of_some {c : Node} (hc : n.child? b = some c) (bs : Bytes) (seen : Neighbors) :
    n.neighbors (b :: bs) seen =
      let below := (if (Edge.locate n.edges b).index = 0 then none
        else n.edges[(Edge.locate n.edges b).index - 1]?.map (·.child.greatest)).or (n.leaf.or seen.below)
      let above := (n.edges[(Edge.locate n.edges b).index + 1]?.map (·.child.least)).or seen.above
      match Bytes.after? c.segment (b :: bs) with
      | some rest => c.neighbors rest ⟨below, above⟩
      | none => if b :: bs < c.segment then ⟨below, some c.least⟩ else ⟨some c.greatest, above⟩ := by
  rw [neighbors]
  split
  · simp_all
  · rename_i c' hc'
    obtain rfl := Option.some.inj (hc.symm.trans hc')
    rfl

/-- **The neighbours of a key are found without a position out of range.** Where a key parts from a segment, both
have a byte there or the key has ended. -/
theorem checkedNeighbors_eq (n : Node) (rest : Bytes) (seen : Neighbors) :
    n.checkedNeighbors rest seen = .ok (n.neighbors rest seen) := by
  rw [checkedNeighbors]
  cases rest with
  | nil =>
      rw [if_pos rfl, neighbors_nil]
      rfl
  | cons b bs =>
      obtain ⟨found, hfound, hchild⟩ := Edge.checkedFind_eq n.edges b
      have hb : itemAt (b :: bs) 0 = .ok b := rfl
      rw [if_neg (List.cons_ne_nil b bs), hb, ok_bind]
      dsimp only
      rw [checkedLeft_eq (Edge.index_le n.edges b), ok_bind, hfound, ok_bind]
      cases found with
      | none =>
          rw [neighbors_of_none hchild]
          rfl
      | some e =>
          obtain ⟨e, he⟩ := e
          rw [neighbors_of_some hchild, Bytes.after?_eq]
          dsimp only
          by_cases hcommon : Bytes.agreement e.child.segment (b :: bs) = e.child.segment.length
          · have hstarts := Bytes.agreement_eq_length_iff.1 hcommon
            rw [if_pos hcommon, if_pos hstarts, hcommon, dropAt_segment hstarts]
            exact e.child.checkedNeighbors_eq _ _
          · have hstarts := mt Bytes.agreement_eq_length_iff.2 hcommon
            have hlt := Nat.lt_of_le_of_ne (Bytes.agreement_le_left e.child.segment (b :: bs)) hcommon
            rw [if_neg hcommon, if_neg hstarts, Bytes.partsBelow_eq hlt, ok_bind]
            by_cases hless : b :: bs < e.child.segment
            · rw [if_pos (decide_eq_true hless)]
              exact congrArg Except.ok (if_pos hless).symm
            · rw [if_neg fun h => hless (of_decide_eq_true h)]
              exact congrArg Except.ok (if_neg hless).symm
termination_by sizeOf n
decreasing_by exact sizeOf_child_lt he

/-- **So is the node that covers some bytes.** -/
theorem checkedCovering?_eq (n : Node) (rest : Bytes) : n.checkedCovering? rest = .ok (n.covering? rest) := by
  rw [checkedCovering?]
  cases rest with
  | nil =>
      rw [if_pos rfl, covering?]
      rfl
  | cons b bs =>
      obtain ⟨found, hfound, hchild⟩ := Edge.checkedFind_eq n.edges b
      have hb : itemAt (b :: bs) 0 = .ok b := rfl
      rw [if_neg (List.cons_ne_nil b bs), hb, ok_bind, hfound, ok_bind]
      cases found with
      | none =>
          rw [covering?_of_none hchild]
          rfl
      | some e =>
          obtain ⟨e, he⟩ := e
          rw [covering?_of_some hchild, Bytes.after?_eq]
          dsimp only
          cases hcovered : Bytes.starts (b :: bs) e.child.segment with
          | true => rfl
          | false =>
              cases hstarts : Bytes.starts e.child.segment (b :: bs) with
              | false => rfl
              | true =>
                  rw [dropAt_segment hstarts]
                  exact e.child.checkedCovering?_eq _
termination_by sizeOf n
decreasing_by exact sizeOf_child_lt he

/-- **And the deepest leaf on the way of a key.** -/
theorem checkedLongest?_eq (n : Node) (rest : Bytes) (seen : Option Link) :
    n.checkedLongest? rest seen = .ok (n.longest? rest seen) := by
  rw [checkedLongest?]
  cases rest with
  | nil =>
      rw [if_pos rfl, longest?_nil]
      rfl
  | cons b bs =>
      obtain ⟨found, hfound, hchild⟩ := Edge.checkedFind_eq n.edges b
      have hb : itemAt (b :: bs) 0 = .ok b := rfl
      rw [if_neg (List.cons_ne_nil b bs), hb, ok_bind, hfound, ok_bind]
      cases found with
      | none =>
          rw [longest?_of_none hchild]
          rfl
      | some e =>
          obtain ⟨e, he⟩ := e
          rw [longest?_of_some hchild, Bytes.after?_eq]
          dsimp only
          cases hstarts : Bytes.starts e.child.segment (b :: bs) with
          | false => rfl
          | true =>
              rw [dropAt_segment hstarts]
              exact e.child.checkedLongest?_eq _ _
termination_by sizeOf n
decreasing_by exact sizeOf_child_lt he

end Node

end OrderedStore
