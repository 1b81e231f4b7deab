import Mathlib.Tactic
import OrderedStore.Proofs.Trie.Indexing
import OrderedStore.Trie.Path

/-!
# Cuts in range

The writes along a path once more, with every position checked: where an edge is read, replaced or put in, and
where a key or a segment is cut. They come to the same as the writes without checks on every node, so the only
positions out of range that a write can meet are those it reports itself.
-/

namespace OrderedStore.Node

open Edit

/-- Insert an edge at its place, with the place checked. -/
def checkedInsertEdge (n : Node) (e : Edge Node) : Except Fault Node :=
  match Edge.locate n.edges e.label with
  | .on _ => .error (.duplicateLabel e.label)
  | .before i => do return { n with edges := ← insertAt n.edges i e }

/-- Split a segment, with every cut checked. -/
def checkedSplit (child : Node) (rest : Bytes) (id : LeafId) : Edit (Edge Node) := do
  let common := Bytes.agreement child.segment rest
  let tail := { child with stamp := ← Edit.fresh, segment := ← dropAt child.segment common }
  let fork ← (bare (← Edit.fresh) (← takeAt rest common)).checkedInsertEdge (← edgeTo tail)
  let fork ←
    if common = rest.length then pure { fork with leaf := some id }
    else fork.checkedInsertEdge (← edgeTo (ofLeaf (← Edit.fresh) (← dropAt rest common) id))
  edgeTo fork.refresh

/-- Put a leaf in, with every position checked. -/
def checkedInsert (n : Node) (rest : Bytes) (id : LeafId) : Edit Node := do
  let n' := { n with stamp := ← Edit.fresh }
  if rest = [] then return refresh { n' with leaf := some id }
  match Edge.locate n.edges (← itemAt rest 0) with
  | .before i =>
    let new ← edgeTo (ofLeaf (← Edit.fresh) rest id)
    return refresh { n' with edges := ← insertAt n.edges i new }
  | .on i =>
    let ⟨e, _h⟩ ← itemAt n.edges.attach i
    let common := Bytes.agreement e.child.segment rest
    let e ←
      if common = e.child.segment.length then do
        pure { e with child := ← e.child.checkedInsert (← dropAt rest common) id }
      else e.child.checkedSplit rest id
    return refresh { n' with edges := n.edges.set i e }
termination_by sizeOf n
decreasing_by exact sizeOf_child_lt _h

/-- Take a leaf away, with every position checked. -/
def checkedErase (n : Node) (rest : Bytes) : Edit Node := do
  let n' := { n with stamp := ← Edit.fresh }
  if rest = [] then return refresh { n' with leaf := none }
  match Edge.locate n.edges (← itemAt rest 0) with
  | .before _ => return n'
  | .on i =>
    let ⟨e, _h⟩ ← itemAt n.edges.attach i
    if Bytes.starts e.child.segment rest then
      let child ← e.child.checkedErase (← dropAt rest e.child.segment.length)
      let n' ← recompress { n' with edges := n.edges.set i { e with child } } i
      return n'.refresh
    else return n'
termination_by sizeOf n
decreasing_by exact sizeOf_child_lt _h

/-- Take away what starts with some bytes, with every position checked. -/
def checkedEraseUnder (n : Node) (rest : Bytes) : Edit Node := do
  let n' := { n with stamp := ← Edit.fresh }
  if rest = [] then return refresh { n' with leaf := none, edges := [] }
  match Edge.locate n.edges (← itemAt rest 0) with
  | .before _ => return n'
  | .on i =>
    let ⟨e, _h⟩ ← itemAt n.edges.attach i
    if rest.length ≤ e.child.segment.length then return refresh { n' with edges := n.edges.eraseIdx i }
    else
      let child ← e.child.checkedEraseUnder (← dropAt rest e.child.segment.length)
      let n' ← recompress { n' with edges := n.edges.set i { e with child } } i
      return n'.refresh
termination_by sizeOf n
decreasing_by exact sizeOf_child_lt _h

theorem checkedInsertEdge_eq (n : Node) (e : Edge Node) : n.checkedInsertEdge e = n.insertEdge e := by
  unfold checkedInsertEdge insertEdge
  rcases Edge.locate_range n.edges e.label with ⟨i, x, hspot, -⟩ | ⟨i, hspot, hle⟩
  · rw [hspot]
  · rw [hspot]
    dsimp only
    rw [insertAt_ok hle]
    rfl

/-- **A segment is cut where a key parts from it**, which is within both. -/
theorem checkedSplit_eq (child : Node) (rest : Bytes) (id : LeafId) :
    child.checkedSplit rest id = child.split rest id := by
  have hleft := Bytes.agreement_le_left child.segment rest
  have hright := Bytes.agreement_le_right child.segment rest
  unfold checkedSplit split
  simp only [dropAt_ok hleft, dropAt_ok hright, takeAt_ok hright, checkedInsertEdge_eq, lift_ok_bind]

/-- **Putting a leaf in meets no position out of range**, by induction on the node. -/
theorem checkedInsert_eq (n : Node) (rest : Bytes) (id : LeafId) : n.checkedInsert rest id = n.insert rest id := by
  rw [checkedInsert, insert]
  refine bind_congr fun s => ?_
  cases rest with
  | nil => rw [if_pos rfl]
  | cons b bs =>
      have hb : itemAt (b :: bs) 0 = .ok b := rfl
      dsimp only
      rw [if_neg (List.cons_ne_nil b bs), hb, lift_ok_bind]
      rcases Edge.locate_range n.edges b with ⟨i, e, hspot, hedge⟩ | ⟨i, hspot, hle⟩
      · rw [hspot]
        dsimp only
        rw [itemAt_attach hedge, lift_ok_bind]
        dsimp only
        by_cases hstarts : Bytes.starts e.child.segment (b :: bs) = true
        · have hcommon := Bytes.agreement_eq_length_iff.2 hstarts
          rw [if_pos hcommon, hcommon, dropAt_segment hstarts, lift_ok_bind, e.child.checkedInsert_eq]
          split
          · simp_all
          · rename_i e' he'
            obtain rfl := Option.some.inj (hedge.symm.trans he')
            rw [Bytes.after?_eq, if_pos hstarts]
        · rw [if_neg (mt Bytes.agreement_eq_length_iff.1 hstarts), checkedSplit_eq]
          split
          · simp_all
          · rename_i e' he'
            obtain rfl := Option.some.inj (hedge.symm.trans he')
            rw [Bytes.after?_eq, if_neg hstarts]
      · rw [hspot]
        dsimp only
        simp only [insertAt_ok hle, lift_ok_bind]
termination_by sizeOf n
decreasing_by exact sizeOf_child_lt (List.mem_of_getElem? hedge)

/-- **Nor does taking one away.** -/
theorem checkedErase_eq (n : Node) (rest : Bytes) : n.checkedErase rest = n.erase rest := by
  rw [checkedErase, erase]
  refine bind_congr fun s => ?_
  cases rest with
  | nil => rw [if_pos rfl]
  | cons b bs =>
      have hb : itemAt (b :: bs) 0 = .ok b := rfl
      dsimp only
      rw [if_neg (List.cons_ne_nil b bs), hb, lift_ok_bind]
      rcases Edge.locate_range n.edges b with ⟨i, e, hspot, hedge⟩ | ⟨i, hspot, -⟩
      · rw [hspot]
        dsimp only
        rw [itemAt_attach hedge, lift_ok_bind]
        dsimp only
        by_cases hstarts : Bytes.starts e.child.segment (b :: bs) = true
        · rw [if_pos hstarts, dropAt_segment hstarts, lift_ok_bind, e.child.checkedErase_eq]
          split
          · simp_all
          · rename_i e' he'
            obtain rfl := Option.some.inj (hedge.symm.trans he')
            rw [Bytes.after?_eq, if_pos hstarts]
        · rw [if_neg hstarts]
          split
          · simp_all
          · rename_i e' he'
            obtain rfl := Option.some.inj (hedge.symm.trans he')
            rw [Bytes.after?_eq, if_neg hstarts]
      · rw [hspot]
termination_by sizeOf n
decreasing_by exact sizeOf_child_lt (List.mem_of_getElem? hedge)

/-- **Nor does taking away what starts with some bytes**: a key is cut only behind a segment that is shorter. -/
theorem checkedEraseUnder_eq (n : Node) (rest : Bytes) : n.checkedEraseUnder rest = n.eraseUnder rest := by
  rw [checkedEraseUnder, eraseUnder]
  refine bind_congr fun s => ?_
  cases rest with
  | nil => rw [if_pos rfl]
  | cons b bs =>
      have hb : itemAt (b :: bs) 0 = .ok b := rfl
      dsimp only
      rw [if_neg (List.cons_ne_nil b bs), hb, lift_ok_bind]
      rcases Edge.locate_range n.edges b with ⟨i, e, hspot, hedge⟩ | ⟨i, hspot, -⟩
      · rw [hspot]
        dsimp only
        rw [itemAt_attach hedge, lift_ok_bind]
        dsimp only
        by_cases hshort : (b :: bs).length ≤ e.child.segment.length
        · rw [if_pos hshort]
          split
          · simp_all
          · rename_i e' he'
            obtain rfl := Option.some.inj (hedge.symm.trans he')
            rw [if_pos hshort]
        · rw [if_neg hshort, dropAt_ok (Nat.le_of_not_le hshort), lift_ok_bind, e.child.checkedEraseUnder_eq]
          split
          · simp_all
          · rename_i e' he'
            obtain rfl := Option.some.inj (hedge.symm.trans he')
            rw [if_neg hshort]
      · rw [hspot]
termination_by sizeOf n
decreasing_by exact sizeOf_child_lt (List.mem_of_getElem? hedge)

end OrderedStore.Node
