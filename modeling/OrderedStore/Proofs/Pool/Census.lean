import Mathlib.Tactic
import OrderedStore.Proofs.Rows

/-!
# What the live leaves of a pool come to

A pool may hold leaves that no chain leads to, or two leaves with one key. A list of entries in key order rules
out both once it is as long as the pool's live count: its leaves are live and different, so they are all the live
leaves there are, no two of them share a key, and together they form a finite map. Two such lists are the same.
-/

namespace OrderedStore

variable {V : Type}

/-- What a leaf stores, under its number. -/
def Leaf.entry (leaf : Leaf V) (id : LeafId) : Entry V := ⟨id, leaf.key, leaf.value⟩

namespace Pool

variable {p : Pool V} {es fs : List (Entry V)}

/-- The entry is what a live leaf of the pool stores. -/
def Stores (p : Pool V) (e : Entry V) : Prop := ∃ leaf, p.leaf? e.id = some leaf ∧ leaf.entry e.id = e

theorem stores_of_leaf? {id : LeafId} {leaf : Leaf V} (h : p.leaf? id = some leaf) : p.Stores (leaf.entry id) :=
  ⟨leaf, h, rfl⟩

theorem Stores.isSome {e : Entry V} (h : p.Stores e) : (p.leaf? e.id).isSome := by
  obtain ⟨leaf, hleaf, -⟩ := h
  rw [hleaf]
  rfl

/-- What is stored is told by its number. -/
theorem Stores.eq_of_id {e f : Entry V} (he : p.Stores e) (hf : p.Stores f) (hid : e.id = f.id) : e = f := by
  obtain ⟨leaf, hleaf, hentry⟩ := he
  obtain ⟨leaf', hleaf', hentry'⟩ := hf
  rw [hid, hleaf', Option.some.injEq] at hleaf
  calc e = leaf.entry e.id := hentry.symm
    _ = leaf'.entry f.id := by rw [hid, hleaf]
    _ = f := hentry'

theorem Strand.stores {before after : Link} (h : p.Strand before es after) : ∀ e ∈ es, p.Stores e := by
  intro e he
  obtain ⟨xs, ys, rfl⟩ := List.append_of_mem he
  exact ⟨_, h.leaf?_mid, rfl⟩

/-- Keys and links of stored entries are the listing of these entries. -/
theorem exists_listed {l : List (Bytes × Link)} (h : ∀ x ∈ l, ∃ e, p.Stores e ∧ (e.key, some e.id) = x) :
    ∃ es, Entry.listed es = l ∧ ∀ e ∈ es, p.Stores e := by
  induction l with
  | nil => exact ⟨[], rfl, by simp⟩
  | cons x l ih =>
      obtain ⟨e, he, rfl⟩ := h x List.mem_cons_self
      obtain ⟨es, rfl, hes⟩ := ih fun y hy => h y (List.mem_cons_of_mem _ hy)
      exact ⟨e :: es, rfl, List.forall_mem_cons.2 ⟨he, hes⟩⟩

/-- Stored entries in a strict order are in different slots. -/
theorem nodup_of_pairwise {r : Entry V → Entry V → Prop} (hirrefl : ∀ e, ¬ r e e) (ho : es.Pairwise r)
    (hstores : ∀ e ∈ es, p.Stores e) : (es.map Entry.id).Nodup := by
  refine List.pairwise_map.2 (List.Pairwise.imp_of_mem ?_ ho)
  intro e f he hf hlt hid
  have heq := (hstores e he).eq_of_id (hstores f hf) hid
  exact hirrefl f (heq ▸ hlt)

theorem nodup_of_stores (ho : Entry.Ordered es) (hstores : ∀ e ∈ es, p.Stores e) : (es.map Entry.id).Nodup :=
  nodup_of_pairwise (fun e => List.lt_irrefl e.key) ho hstores

/-- The entries are what the live leaves store, all of it, in key order. -/
structure ConsistsOf (p : Pool V) (es : List (Entry V)) : Prop where
  ordered : Entry.Ordered es
  mem_iff : ∀ e, e ∈ es ↔ p.Stores e

theorem CountsLive.length_le (hp : p.CountsLive) (hnd : (es.map Entry.id).Nodup) (hstores : ∀ e ∈ es, p.Stores e) :
    es.length ≤ p.live := by
  have hlive : ∀ id ∈ es.map Entry.id, (p.leaf? id).isSome := by
    intro id hid
    obtain ⟨e, he, rfl⟩ := List.mem_map.1 hid
    exact (hstores e he).isSome
  have hle := hp.length_le_live hnd hlive
  rwa [List.length_map] at hle

/-- As many stored entries as leaves are live are what all live leaves store. -/
theorem CountsLive.mem_iff_stores (hp : p.CountsLive) (hnd : (es.map Entry.id).Nodup)
    (hstores : ∀ e ∈ es, p.Stores e) (hlen : p.live = es.length) (e : Entry V) : e ∈ es ↔ p.Stores e := by
  refine ⟨hstores e, fun he => ?_⟩
  have hlive : ∀ id ∈ es.map Entry.id, (p.leaf? id).isSome :=
    List.forall_mem_map.2 fun f hf => (hstores f hf).isSome
  have hid := hp.mem_of_length hnd hlive (by rw [List.length_map, hlen]) he.isSome
  obtain ⟨f, hf, heq⟩ := List.mem_map.1 hid
  exact (hstores f hf).eq_of_id he heq ▸ hf

/-- **As many stored entries in key order as leaves are live** are what all live leaves store. -/
theorem CountsLive.consistsOf (hp : p.CountsLive) (ho : Entry.Ordered es) (hstores : ∀ e ∈ es, p.Stores e)
    (hlen : p.live = es.length) : p.ConsistsOf es :=
  ⟨ho, hp.mem_iff_stores (nodup_of_stores ho hstores) hstores hlen⟩

/-- In any strict order there is one way to list all live leaves. -/
theorem CountsLive.eq_of_pairwise (hp : p.CountsLive) {r : Entry V → Entry V → Prop}
    (hasymm : ∀ e f, r e f → ¬ r f e) (hes : es.Pairwise r) (hfs : fs.Pairwise r) (hesStores : ∀ e ∈ es, p.Stores e)
    (hfsStores : ∀ e ∈ fs, p.Stores e) (hesLen : p.live = es.length) (hfsLen : p.live = fs.length) : es = fs := by
  have hirrefl : ∀ e, ¬ r e e := fun e hlt => hasymm e e hlt hlt
  have hall := hp.mem_iff_stores (nodup_of_pairwise hirrefl hes hesStores) hesStores hesLen
  have hall' := hp.mem_iff_stores (nodup_of_pairwise hirrefl hfs hfsStores) hfsStores hfsLen
  have hnever : Std.Irrefl r := ⟨hirrefl⟩
  have hantisymm : Std.Antisymm r := ⟨fun e f hef hfe => absurd hfe (hasymm e f hef)⟩
  exact List.Pairwise.eq_of_mem_iff hes hfs fun {e} => (hall e).trans (hall' e).symm

theorem ConsistsOf.unique (h : p.ConsistsOf es) (h' : p.ConsistsOf fs) : es = fs := by
  have hirrefl : Std.Irrefl fun a b : Entry V => a.key < b.key := ⟨fun a => List.lt_irrefl a.key⟩
  have hasymm : Std.Antisymm fun a b : Entry V => a.key < b.key :=
    ⟨fun a b hab hba => absurd hba (List.lt_asymm hab)⟩
  exact List.Pairwise.eq_of_mem_iff h.ordered h'.ordered fun {e} => (h.mem_iff e).trans (h'.mem_iff e).symm

/-- The live leaves have different keys and form the finite map. -/
structure Forms (p : Pool V) (s : FiniteMap V) : Prop where
  distinct : ∀ id id' leaf leaf', p.leaf? id = some leaf → p.leaf? id' = some leaf' → leaf.key = leaf'.key → id = id'
  value_iff : ∀ key value, s.value key = some value ↔ ∃ id leaf, p.leaf? id = some leaf ∧ leaf.item = (key, value)

/-- **What the live leaves consist of is the map they form.** -/
theorem ConsistsOf.forms {s : FiniteMap V} (h : p.ConsistsOf es) (hs : s.Lists es) : p.Forms s where
  distinct := by
    intro id id' leaf leaf' hleaf hleaf' hkey
    have hmem := (h.mem_iff _).2 (stores_of_leaf? hleaf)
    have hmem' := (h.mem_iff _).2 (stores_of_leaf? hleaf')
    exact congrArg Entry.id (List.inj_on_of_nodup_map h.ordered.nodup_keys hmem hmem' hkey)
  value_iff := by
    intro key value
    rw [hs.value_iff, List.mem_map]
    constructor
    · rintro ⟨e, he, hitem⟩
      obtain ⟨leaf, hleaf, hentry⟩ := (h.mem_iff e).1 he
      exact ⟨e.id, leaf, hleaf, (congrArg Entry.item hentry).trans hitem⟩
    · rintro ⟨id, leaf, hleaf, hitem⟩
      exact ⟨leaf.entry id, (h.mem_iff _).2 (stores_of_leaf? hleaf), hitem⟩

end Pool

end OrderedStore
