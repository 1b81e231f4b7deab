import Mathlib.Tactic
import OrderedStore.Pool.Sharing
import OrderedStore.Proofs.Pool.Strand
import OrderedStore.Proofs.Renewal

/-!
# Tables made anew

A write to a slot, and the opening of one, make the tables on the path of the slot anew and keep all others: `Retraced`
says so of a table. From it follows what the tables of a tower consist of afterwards, and how many of them are new after
any number of writes, because writes to one slot make the tables on one path anew, over and over. So the tables that
are not new are told by the slots that were written: `Kept` says that tables on no path of theirs are old.

A table that is kept is also kept in its place, below the same children of the same pages, so that an earlier tower can
be compared table by table: `InPlace` says so, and that the comparison counts exactly the tables that are new follows.
-/

namespace OrderedStore

variable {V : Type} {h : Nat} {id : LeafId} {now next : Nat}

def Tower.stamp (t : Tower V) : Stamp := t.table.stamp

namespace Table

/-- A table and all tables below it. -/
def tables : {h : Nat} → Table V h → List (Tower V)
  | 0, t => [⟨0, t⟩]
  | h + 1, t => ⟨h + 1, t⟩ :: t.children.toList.flatMap tables

/-- The tables below a table. -/
def below : {h : Nat} → Table V h → List (Tower V)
  | 0, _ => []
  | _ + 1, t => t.children.toList.flatMap tables

theorem tables_eq (t : Table V h) : t.tables = ⟨h, t⟩ :: t.below := by
  cases h with
  | zero => rfl
  | succ h => rfl

theorem mem_below {t : Table V (h + 1)} {x : Tower V} :
    x ∈ t.below ↔ ∃ (i : Nat) (child : Table V h), t.children[i]? = some child ∧ x ∈ child.tables := by
  rw [below, List.mem_flatMap]
  constructor
  · rintro ⟨child, hchild, hx⟩
    obtain ⟨i, hi⟩ := List.mem_iff_getElem?.1 hchild
    exact ⟨i, child, by rwa [Array.getElem?_toList] at hi, hx⟩
  · rintro ⟨i, child, hi, hx⟩
    exact ⟨child, List.mem_of_getElem? (by rwa [Array.getElem?_toList]), hx⟩

theorem below_empty (now : Stamp) : (empty V now h).below = [] := by
  cases h with
  | zero => rfl
  | succ h => rfl

/-! ## The path of a slot -/

/-- The tables on the path of a slot are new, their stamps drawn from `now` on, and the others are the old ones. Where
the path ends in the old table it goes on in an empty one. -/
def Retraced (id : LeafId) (now : Nat) : {h : Nat} → Table V h → Table V h → Prop
  | 0, _, t' => now = t'.stamp
  | h + 1, t, t' => now + (h + 1) = t'.stamp ∧ (∀ i, i ≠ id.branch h → t'.children[i]? = t.children[i]?) ∧
      ∀ child' : Table V h, t'.children[id.branch h]? = some child' →
        ∃ child, (t.children[id.branch h]? = some child ∨ child = empty V now h) ∧ Retraced id now child child'

theorem retraced_succ {t t' : Table V (h + 1)} :
    t.Retraced id now t' ↔ now + (h + 1) = t'.stamp ∧ (∀ i, i ≠ id.branch h → t'.children[i]? = t.children[i]?) ∧
      ∀ child' : Table V h, t'.children[id.branch h]? = some child' →
        ∃ child, (t.children[id.branch h]? = some child ∨ child = empty V now h) ∧ Retraced id now child child' :=
  Iff.rfl

theorem write_retraced (slot : Slot V) (t : Table V h) : t.Retraced id now (t.write id slot now) := by
  induction h with
  | zero => exact rfl
  | succ h ih =>
      refine retraced_succ.2 ⟨rfl, fun i hi => ?_, fun child' hchild' => ?_⟩
      · rw [children_write, Array.getElem?_modify, if_neg hi.symm]
      · rw [children_write, Array.getElem?_modify, if_pos rfl] at hchild'
        obtain ⟨child, hchild, rfl⟩ := Option.map_eq_some_iff.1 hchild'
        exact ⟨child, Or.inl hchild, ih child⟩

theorem grownChildren_at {t : Table V (h + 1)} {i : Nat} {child : Table V h}
    (hc : (t.grownChildren now i)[i]? = some child) : t.children[i]? = some child ∨ child = empty V now h := by
  unfold grownChildren at hc
  split at hc
  · rename_i hi
    rw [hi, Array.getElem?_push_size] at hc
    exact Or.inr (Option.some.inj hc).symm
  · exact Or.inl hc

/-- What extending a page comes to: the child of the slot, there already or added empty, is extended. -/
theorem extend_page {t t' : Table V (h + 1)} (hx : t.extend id now = .ok t') :
    ∃ child child' : Table V h, (t.grownChildren now (id.branch h))[id.branch h]? = some child ∧
      child.extend id now = .ok child' ∧
      t' = (⟨now + (h + 1), (t.grownChildren now (id.branch h)).setIfInBounds (id.branch h) child'⟩ :
        Page (Table V h)) := by
  cases hc : (t.grownChildren now (id.branch h))[id.branch h]? with
  | none =>
      unfold grownChildren children at hc
      simp only [extend, hc] at hx
      cases hx
  | some child =>
      cases hchild : child.extend id now with
      | error fault =>
          unfold grownChildren children at hc
          simp only [extend, hc, hchild] at hx
          cases hx
      | ok child' =>
          refine ⟨child, child', rfl, hchild, ?_⟩
          unfold grownChildren children at hc ⊢
          simp only [extend, hc, hchild] at hx
          exact (Except.ok.inj hx).symm

theorem extend_retraced {t t' : Table V h} (hx : t.extend id now = .ok t') : t.Retraced id now t' := by
  induction h with
  | zero =>
      obtain rfl := Except.ok.inj hx
      exact rfl
  | succ h ih =>
      obtain ⟨child, child', hc, hchild, rfl⟩ := extend_page hx
      refine retraced_succ.2 ⟨rfl, fun i hi => ?_, fun child'' hchild'' => ?_⟩
      · change ((t.grownChildren now (id.branch h)).setIfInBounds (id.branch h) child')[i]? = _
        rw [Array.getElem?_setIfInBounds, if_neg hi.symm, grownChildren_ne t now hi]
      · change ((t.grownChildren now (id.branch h)).setIfInBounds (id.branch h) child')[id.branch h]? = _ at hchild''
        rw [Array.getElem?_setIfInBounds, if_pos rfl, if_pos (Array.getElem?_eq_some_iff.1 hc).1] at hchild''
        obtain rfl := Option.some.inj hchild''
        exact ⟨child, grownChildren_at hc, ih hchild⟩

/-! ## What a retraced table consists of -/

/-- Lists that agree but in one place, where what the new one has is made or taken from the old one: so it is with all
that they consist of. -/
theorem flatMap_subperm {α β : Type} {f : α → List β} {as as' : List α} {made : List β} {k : Nat}
    (hsame : ∀ i, i ≠ k → as'[i]? = as[i]?) (hhere : ∀ a', as'[k]? = some a' →
      (f a').Subperm made ∨ ∃ a, as[k]? = some a ∧ (f a').Subperm (made ++ f a)) :
    (as'.flatMap f).Subperm (made ++ as.flatMap f) := by
  induction as' generalizing as k with
  | nil => exact List.nil_subperm
  | cons a' as' ih =>
      rw [List.flatMap_cons]
      cases k with
      | zero =>
          have htail : as' = as.tail := by
            refine List.ext_getElem? fun i => ?_
            rw [List.getElem?_tail, ← hsame (i + 1) (by simp), List.getElem?_cons_succ]
          rcases hhere a' rfl with hmade | ⟨a, ha, hmade⟩
          · have hsub : (as.tail.flatMap f).Sublist (as.flatMap f) := (List.tail_sublist as).flatMap f
            exact htail ▸ hmade.append hsub.subperm
          · obtain ⟨rest, rfl⟩ := List.head?_eq_some_iff.1 (List.head?_eq_getElem?.trans ha)
            rw [htail, List.tail_cons, List.flatMap_cons, ← List.append_assoc]
            exact (List.subperm_append_right _).2 hmade
      | succ k =>
          have ha := hsame 0 (by simp)
          obtain ⟨rest, rfl⟩ := List.head?_eq_some_iff.1 (List.head?_eq_getElem?.trans ha.symm)
          have hrest : (as'.flatMap f).Subperm (made ++ rest.flatMap f) :=
            ih (fun i hi => hsame (i + 1) (by omega)) hhere
          rw [List.flatMap_cons]
          exact ((List.subperm_append_left (f a')).2 hrest).trans (List.perm_append_comm_assoc _ _ _).subperm

/-- **The tables of a retraced table** are those below the old one, and the made ones on the path. -/
theorem Retraced.made {t t' : Table V h} (ht : t.Retraced id now t') :
    ∃ made, Made Tower.stamp made now (now + (h + 1)) ∧ t'.tables.Subperm (made ++ t.below) := by
  induction h with
  | zero =>
      have hstamp : now = Tower.stamp ⟨0, t'⟩ := ht
      exact ⟨[⟨0, t'⟩], Made.singleton (by omega), List.Subperm.refl _⟩
  | succ h ih =>
      obtain ⟨hstamp, hsame, hpath⟩ := retraced_succ.1 ht
      replace hstamp : now + (h + 1) = Tower.stamp ⟨h + 1, t'⟩ := hstamp
      -- the tables made below, if the path goes on at all
      have hbelow : ∃ made, Made Tower.stamp made now (now + (h + 1)) ∧
          ∀ child', t'.children[id.branch h]? = some child' → child'.tables.Subperm made ∨
            ∃ child, t.children[id.branch h]? = some child ∧ child'.tables.Subperm (made ++ child.tables) := by
        cases hi : t'.children[id.branch h]? with
        | none => exact ⟨[], Made.nil, by simp⟩
        | some child' =>
            obtain ⟨child, hchild, hrest⟩ := hpath child' hi
            obtain ⟨made, hmade, hsub⟩ := ih hrest
            refine ⟨made, hmade, fun c hc => ?_⟩
            obtain rfl := Option.some.inj hc
            rcases hchild with hold | rfl
            · refine Or.inr ⟨child, hold, hsub.trans ?_⟩
              rw [tables_eq]
              exact ((List.sublist_cons_self _ _).append_left made).subperm
            · rw [below_empty, List.append_nil] at hsub
              exact Or.inl hsub
      obtain ⟨made, hmade, hpart⟩ := hbelow
      refine ⟨⟨h + 1, t'⟩ :: made, hmade.cons (Nat.le_refl now) (by omega) (by omega) (Or.inr (by omega)), ?_⟩
      rw [tables_eq, List.cons_append, List.subperm_cons]
      simp only [← Array.getElem?_toList] at hsame hpart
      exact flatMap_subperm hsame hpart

/-! ## How many tables are new -/

/-- The table is old, and so is every table below it, unless it is on the path of one of some slots. -/
def Kept (old : Stamp → Prop) : {h : Nat} → Table V h → List LeafId → Prop
  | 0, t, ids => ids = [] → old t.stamp
  | h + 1, t, ids => (ids = [] → old t.stamp) ∧ ∀ (i : Nat) (child : Table V h), t.children[i]? = some child →
      Kept old child (ids.filter fun id => id.branch h = i)

variable {old : Stamp → Prop} {ids ids' : List LeafId}

theorem kept_succ {t : Table V (h + 1)} : t.Kept old ids ↔ (ids = [] → old t.stamp) ∧
    ∀ (i : Nat) (child : Table V h), t.children[i]? = some child →
      child.Kept old (ids.filter fun id => id.branch h = i) := Iff.rfl

theorem kept_of_old {t : Table V h} (ht : ∀ x ∈ t.tables, old x.stamp) (ids : List LeafId) : t.Kept old ids := by
  have hself : old t.stamp := ht ⟨h, t⟩ (by simp [tables_eq])
  induction h generalizing ids with
  | zero => exact fun _ => hself
  | succ h ih =>
      refine kept_succ.2 ⟨fun _ => hself, fun i child hi => ?_⟩
      have hbelow : ∀ x ∈ child.tables, old x.stamp := by
        intro x hx
        refine ht x ?_
        rw [tables_eq]
        exact List.mem_cons_of_mem _ (mem_below.2 ⟨i, child, hi, hx⟩)
      exact ih hbelow _ (hbelow ⟨h, child⟩ (by simp [tables_eq]))

theorem Kept.mono {t : Table V h} (ht : t.Kept old ids) (hsub : ids ⊆ ids') : t.Kept old ids' := by
  induction h generalizing ids ids' with
  | zero =>
      rintro rfl
      exact ht (List.subset_nil.1 hsub)
  | succ h ih =>
      obtain ⟨hself, hchild⟩ := kept_succ.1 ht
      refine kept_succ.2 ⟨?_, fun i child hi => ih (hchild i child hi) (List.filter_subset _ hsub)⟩
      rintro rfl
      exact hself (List.subset_nil.1 hsub)

theorem kept_empty (hid : id ∈ ids) : (empty V now h).Kept old ids := by
  have hne : ids ≠ [] := List.ne_nil_of_mem hid
  cases h with
  | zero => exact fun hnil => absurd hnil hne
  | succ h =>
      refine kept_succ.2 ⟨fun hnil => absurd hnil hne, fun i child hi => ?_⟩
      simp [children_empty] at hi

/-- Making the path of one of the slots anew makes no other table new. -/
theorem Retraced.kept {t t' : Table V h} (ht : t.Retraced id now t') (hk : t.Kept old ids) (hid : id ∈ ids) :
    t'.Kept old ids := by
  have hne : ids ≠ [] := List.ne_nil_of_mem hid
  induction h generalizing ids with
  | zero => exact fun hnil => absurd hnil hne
  | succ h ih =>
      obtain ⟨-, hsame, hpath⟩ := retraced_succ.1 ht
      obtain ⟨-, hchild⟩ := kept_succ.1 hk
      refine kept_succ.2 ⟨fun hnil => absurd hnil hne, fun i child' hi => ?_⟩
      by_cases hib : i = id.branch h
      · subst hib
        have hid' : id ∈ ids.filter fun id' => id'.branch h = id.branch h := by simpa using hid
        obtain ⟨child, hold | rfl, hrest⟩ := hpath child' hi
        · exact ih hrest (hchild _ _ hold) hid' (List.ne_nil_of_mem hid')
        · exact ih hrest (kept_empty hid') hid' (List.ne_nil_of_mem hid')
      · rw [hsame i hib] at hi
        exact hchild i child' hi

/-- What belongs to one place, and what belongs to those after it. -/
theorem countP_from {γ : Type} (place : γ → Nat) (k : Nat) (ids : List γ) :
    (ids.countP fun id => k ≤ place id) =
      (ids.countP fun id => place id = k) + ids.countP fun id => k + 1 ≤ place id := by
  induction ids with
  | nil => rfl
  | cons id ids ih =>
      rw [List.countP_cons, List.countP_cons, List.countP_cons, ih]
      simp only [decide_eq_true_eq]
      split_ifs <;> omega

/-- If the parts of a list have at most `n` each for every one of the things at their place, they have at most `n` for
each of them together. -/
theorem countP_flatMap_le {α β γ : Type} {f : α → List β} {p : β → Bool} {place : γ → Nat} {n k : Nat} {ids : List γ}
    {parts : List α} (hparts : ∀ i part, parts[i]? = some part →
      (f part).countP p ≤ (ids.countP fun id => place id = k + i) * n) :
    (parts.flatMap f).countP p ≤ (ids.countP fun id => k ≤ place id) * n := by
  induction parts generalizing k with
  | nil => simp
  | cons part parts ih =>
      have hhead := hparts 0 part rfl
      have htail : (parts.flatMap f).countP p ≤ (ids.countP fun id => k + 1 ≤ place id) * n := by
        refine ih fun i part' hi => ?_
        rw [Nat.add_right_comm, Nat.add_assoc]
        exact hparts (i + 1) part' hi
      rw [List.flatMap_cons, List.countP_append, countP_from, Nat.add_mul]
      exact Nat.add_le_add hhead htail

/-- **No more tables are new than lie on the paths of the slots.** -/
theorem Kept.countP_le {p : Tower V → Bool} (hp : ∀ x, p x = true → ¬ old x.stamp) {t : Table V h}
    (ht : t.Kept old ids) : t.tables.countP p ≤ ids.length * (h + 1) := by
  have hself : ∀ {h : Nat} {t : Table V h} {ids : List LeafId}, (ids = [] → old t.stamp) →
      (if p ⟨h, t⟩ = true then 1 else 0) ≤ ids.length := by
    intro h t ids ht
    split
    · rename_i hnew
      exact List.length_pos_iff.2 fun hnil => hp _ hnew (ht hnil)
    · exact Nat.zero_le _
  induction h generalizing ids with
  | zero =>
      rw [tables, List.countP_singleton, Nat.mul_one]
      exact hself ht
  | succ h ih =>
      obtain ⟨hold, hchild⟩ := kept_succ.1 ht
      have hbelow : t.below.countP p ≤ (ids.countP fun id => 0 ≤ id.branch h) * (h + 1) := by
        refine countP_flatMap_le fun i child hi => ?_
        rw [Array.getElem?_toList] at hi
        have hpart := ih (hchild i child hi)
        rwa [← List.countP_eq_length_filter, ← Nat.zero_add i] at hpart
      have hall : (ids.countP fun id => 0 ≤ id.branch h) ≤ ids.length := List.countP_le_length
      rw [tables_eq, List.countP_cons]
      calc t.below.countP p + (if p ⟨h + 1, t⟩ = true then 1 else 0)
          ≤ ids.length * (h + 1) + ids.length :=
            Nat.add_le_add (hbelow.trans (Nat.mul_le_mul_right _ hall)) (hself hold)
        _ = ids.length * (h + 1 + 1) := (Nat.mul_succ _ _).symm

/-! ## Where the old tables are -/

/-- What the child of a table is to be compared with. An earlier tower that still lies some levels below is looked for
at the first child. -/
def before (earlier : Option (Tower V)) (lift i : Nat) : Option (Tower V) :=
  if lift = 0 then earlier.bind (·.children[i]?) else if i = 0 then earlier else none

/-- Every old table is where it was in an earlier tower, or is not there any more. -/
def InPlace (old : Stamp → Prop) : {h : Nat} → Table V h → (earlier : Option (Tower V)) → (lift : Nat) → Prop
  | 0, t, earlier, lift => (lift = 0 ∧ earlier = some ⟨0, t⟩) ∨ ¬ old t.stamp
  | h + 1, t, earlier, lift => (lift = 0 ∧ earlier = some ⟨h + 1, t⟩) ∨ ¬ old t.stamp ∧
      ∀ (i : Nat) (child : Table V h), t.children[i]? = some child →
        InPlace old child (before earlier lift i) (lift - 1)

section InPlace

variable {earlier : Option (Tower V)} {lift : Nat}

theorem inPlace_succ {t : Table V (h + 1)} : t.InPlace old earlier lift ↔
    (lift = 0 ∧ earlier = some ⟨h + 1, t⟩) ∨ ¬ old t.stamp ∧
      ∀ (i : Nat) (child : Table V h), t.children[i]? = some child →
        child.InPlace old (before earlier lift i) (lift - 1) := Iff.rfl

theorem inPlace_self (old : Stamp → Prop) (t : Table V h) : t.InPlace old (some ⟨h, t⟩) 0 := by
  cases h with
  | zero => exact Or.inl ⟨rfl, rfl⟩
  | succ h => exact Or.inl ⟨rfl, rfl⟩

theorem before_self {t : Table V (h + 1)} {i : Nat} {child : Table V h} (hi : t.children[i]? = some child) :
    before (some ⟨h + 1, t⟩) 0 i = some ⟨h, child⟩ := by
  have hget : (Tower.children ⟨h + 1, t⟩)[i]? = t.children[i]?.map fun child => (⟨h, child⟩ : Tower V) := by
    rw [← Array.getElem?_toList, ← List.getElem?_map]
    rfl
  rw [before, if_pos rfl, Option.bind_some, hget, hi, Option.map_some]

/-- The old tables below a child are where they were. -/
theorem InPlace.child {t : Table V (h + 1)} (ht : t.InPlace old earlier lift) {i : Nat} {child : Table V h}
    (hi : t.children[i]? = some child) : child.InPlace old (before earlier lift i) (lift - 1) := by
  rcases inPlace_succ.1 ht with ⟨rfl, rfl⟩ | ⟨-, hchild⟩
  · rw [before_self hi]
    exact inPlace_self old child
  · exact hchild i child hi

theorem inPlace_empty (hold : Drawn old now) : (empty V now h).InPlace old earlier lift := by
  cases h with
  | zero => exact Or.inr (hold.not_old (Nat.le_refl now))
  | succ h =>
      refine inPlace_succ.2 (Or.inr ⟨hold.not_old (Nat.le_add_right now (h + 1)), fun i child hi => ?_⟩)
      simp [children_empty] at hi

/-- **Making a path anew leaves the old tables in their places.** -/
theorem Retraced.inPlace {t t' : Table V h} (ht : t.Retraced id now t') (hold : Drawn old now)
    (hp : t.InPlace old earlier lift) : t'.InPlace old earlier lift := by
  induction h generalizing earlier lift with
  | zero =>
      have hstamp : now = t'.stamp := ht
      exact Or.inr (hold.not_old hstamp.le)
  | succ h ih =>
      obtain ⟨hstamp, hsame, hpath⟩ := retraced_succ.1 ht
      have hle : now ≤ t'.stamp := hstamp ▸ Nat.le_add_right now (h + 1)
      refine inPlace_succ.2 (Or.inr ⟨hold.not_old hle, fun i child' hi => ?_⟩)
      by_cases hib : i = id.branch h
      · subst hib
        obtain ⟨child, hchild | rfl, hrest⟩ := hpath child' hi
        · exact ih hrest (hp.child hchild)
        · exact ih hrest (inPlace_empty hold)
      · rw [hsame i hib] at hi
        exact hp.child hi

/-- What a child is compared with lies in the earlier tower. -/
theorem tables_before {e : Tower V} {i : Nat} (he : before earlier lift i = some e) :
    ∃ e', earlier = some e' ∧ e.table.tables ⊆ e'.table.tables := by
  unfold before at he
  split at he
  · obtain ⟨⟨h, t⟩, rfl, hi⟩ := Option.bind_eq_some_iff.1 he
    refine ⟨_, rfl, fun x hx => ?_⟩
    cases h with
    | zero => cases hi
    | succ h =>
        obtain ⟨child, hchild, rfl⟩ := List.mem_map.1 (List.mem_of_getElem? hi)
        rw [tables_eq, List.mem_cons]
        exact Or.inr (List.mem_flatMap.2 ⟨child, hchild, hx⟩)
  · split at he
    · exact ⟨e, he, List.Subset.refl _⟩
    · cases he

theorem unsharedWith_succ (t : Table V (h + 1)) (earlier : Option (Tower V)) (lift : Nat) :
    t.unsharedWith earlier lift =
      if lift = 0 ∧ earlier.map (·.table.stamp) = some t.stamp then 0
      else 1 + (t.children.toList.zipIdx.map fun x => x.1.unsharedWith (before earlier lift x.2) (lift - 1)).sum := by
  rw [List.sum_eq_foldr]
  rfl

/-- A new table is not taken for one it is compared with. -/
theorem not_shared_of_new (hold : ∀ e, earlier = some e → ∀ x ∈ e.table.tables, old x.stamp) {t : Table V h}
    (ht : ¬ old t.stamp) : ¬ (lift = 0 ∧ earlier.map (·.table.stamp) = some t.stamp) := by
  rintro ⟨-, hstamp⟩
  obtain ⟨e, he, heq⟩ := Option.map_eq_some_iff.1 hstamp
  have hself : e ∈ e.table.tables := by
    rw [tables_eq]
    exact List.mem_cons_self
  exact ht (heq ▸ hold e he e hself)

/-- **If the old tables are where they were, the comparison counts the new ones.** -/
theorem InPlace.unsharedWith_eq {new : Tower V → Bool} (hnew : ∀ x, new x = true ↔ ¬ old x.stamp) {t : Table V h}
    (ht : t.InPlace old earlier lift) (hold : ∀ e, earlier = some e → ∀ x ∈ e.table.tables, old x.stamp) :
    t.unsharedWith earlier lift = t.tables.countP new := by
  induction h generalizing earlier lift with
  | zero =>
      rcases ht with ⟨rfl, rfl⟩ | ht
      · rw [unsharedWith, if_pos ⟨rfl, rfl⟩]
        exact (List.countP_eq_zero.2 fun x hx hx' => (hnew x).1 hx' (hold _ rfl x hx)).symm
      · rw [unsharedWith, if_neg (not_shared_of_new hold ht), tables, List.countP_singleton,
          if_pos ((hnew ⟨0, t⟩).2 ht)]
  | succ h ih =>
      rcases inPlace_succ.1 ht with ⟨rfl, rfl⟩ | ⟨ht, hchild⟩
      · rw [unsharedWith_succ, if_pos ⟨rfl, rfl⟩]
        exact (List.countP_eq_zero.2 fun x hx hx' => (hnew x).1 hx' (hold _ rfl x hx)).symm
      · have hcounts : ∀ x ∈ t.children.toList.zipIdx,
            x.1.unsharedWith (before earlier lift x.2) (lift - 1) = x.1.tables.countP new := by
          intro x hx
          have hi : t.children[x.2]? = some x.1 := by
            rw [← Array.getElem?_toList]
            exact List.mem_zipIdx_iff_getElem?.1 hx
          refine ih (hchild x.2 x.1 hi) fun e he y hy => ?_
          obtain ⟨e', he', hsub⟩ := tables_before he
          exact hold e' he' y (hsub hy)
        have hbelow : (t.children.toList.zipIdx.map fun x => x.1.tables.countP new).sum = t.below.countP new := by
          rw [below, List.countP_flatMap]
          conv_rhs => rw [← List.zipIdx_map_fst 0 t.children.toList, List.map_map]
          rfl
        rw [unsharedWith_succ, if_neg (not_shared_of_new hold ht), List.map_congr_left hcounts, hbelow, tables_eq,
          List.countP_cons, if_pos ((hnew ⟨h + 1, t⟩).2 ht), Nat.add_comm]

end InPlace

end Table

end OrderedStore
