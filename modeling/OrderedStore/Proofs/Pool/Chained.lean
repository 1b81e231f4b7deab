import Mathlib.Tactic
import OrderedStore.Proofs.Pool.Strand

/-!
# Chain operations as list operations

A pool *chains* a list of entries when their leaves form one whole chain, from an end to an end. The main
statements read the chain operations off that list: splicing puts an entry in at its place, unlinking takes
it out and leaves it alone, freeing a run removes the run and joins what was on either side. Each of them
leaves all leaves outside the list as they were.
-/

namespace OrderedStore.Pool

open Edit
open Entry (first last first_cons last_singleton last_concat)

variable {V : Type}

/-- The leaves of these entries follow one another from an end to an end, each once. -/
structure Linked (p : Pool V) (es : List (Entry V)) : Prop where
  strand : p.Strand none es none
  nodup : (es.map Entry.id).Nodup

/-- The leaves of these entries form one chain of a sound pool. -/
structure Chained (p : Pool V) (es : List (Entry V)) : Prop where
  sound : p.Sound
  strand : p.Strand none es none
  nodup : (es.map Entry.id).Nodup

theorem Chained.linked {p : Pool V} {es : List (Entry V)} (h : p.Chained es) : p.Linked es := ⟨h.strand, h.nodup⟩

theorem SameOff.mono {p p' : Pool V} {ids ids' : List LeafId} (h : p.SameOff p' ids) (hs : ids ⊆ ids') :
    p.SameOff p' ids' := fun id hid => h id fun hmem => hid (hs hmem)

theorem SameOff.trans {p p₁ p₂ : Pool V} {ids ids₁ ids₂ : List LeafId} (h₁ : p.SameOff p₁ ids₁)
    (h₂ : p₁.SameOff p₂ ids₂) (hs₁ : ids₁ ⊆ ids) (hs₂ : ids₂ ⊆ ids) : p.SameOff p₂ ids := by
  intro id hid
  rw [h₂ id fun h => hid (hs₂ h), h₁ id fun h => hid (hs₁ h)]

theorem SameOff.strand {p p' : Pool V} {ids : List LeafId} {es : List (Entry V)} {before after : Link}
    (h : p.SameOff p' ids) (hs : p.Strand before es after) (hd : ∀ id ∈ es.map Entry.id, id ∉ ids) :
    p'.Strand before es after := hs.congr fun id hid => h id (hd id hid)

theorem sameOff_update {p p' : Pool V} {id : LeafId} {leaf : Option (Leaf V)}
    (h : p'.leaf? = Function.update p.leaf? id leaf) : p.SameOff p' [id] := by
  intro id' hid'
  rw [h, Function.update_of_ne (by simpa using hid')]

theorem chained_empty : (empty : Pool V).Chained [] := ⟨sound_empty, trivial, List.nodup_nil⟩

theorem Linked.leaf?_mid {p : Pool V} {xs ys : List (Entry V)} {e : Entry V} (hp : p.Linked (xs ++ e :: ys)) :
    p.leaf? e.id = some ⟨e.key, e.value, last xs, first ys⟩ := by
  have := hp.strand.leaf?_mid
  rwa [Option.or_none, Option.or_none] at this

theorem leaf?_of_mem {p : Pool V} {xs ys : List (Entry V)} {e : Entry V} (hp : p.Chained (xs ++ e :: ys)) :
    p.leaf? e.id = some ⟨e.key, e.value, last xs, first ys⟩ := hp.linked.leaf?_mid

/-- Two pools that chain the same entries hold the same leaves for them. -/
theorem Chained.leaf?_eq {p p' : Pool V} {es : List (Entry V)} (hp : p.Chained es) (hp' : p'.Chained es) {id : LeafId}
    (hid : id ∈ es.map Entry.id) : p'.leaf? id = p.leaf? id := by
  obtain ⟨e, he, rfl⟩ := List.mem_map.1 hid
  obtain ⟨xs, ys, rfl⟩ := List.append_of_mem he
  rw [leaf?_of_mem hp, leaf?_of_mem hp']

/-- If as many leaves are live as are chained, every live leaf is chained. -/
theorem Chained.mem_of_live {p : Pool V} {es : List (Entry V)} (hp : p.Chained es) (hlive : p.live = es.length)
    {id : LeafId} (hid : (p.leaf? id).isSome) : id ∈ es.map Entry.id :=
  hp.sound.countsLive.mem_of_length hp.nodup hp.strand.isSome (by rw [List.length_map, hlive]) hid

/-- The links of a chain are each other's inverse. -/
theorem Chained.next_iff_prev {p : Pool V} {es : List (Entry V)} (hp : p.Chained es) {a b : LeafId}
    (ha : a ∈ es.map Entry.id) (hb : b ∈ es.map Entry.id) {x y : Leaf V} (hx : p.leaf? a = some x)
    (hy : p.leaf? b = some y) : x.next = some b ↔ y.prev = some a := by
  constructor
  · intro hnext
    obtain ⟨e, he, rfl⟩ := List.mem_map.1 ha
    obtain ⟨xs, ys, rfl⟩ := List.append_of_mem he
    rw [leaf?_of_mem hp, Option.some.injEq] at hx
    subst hx
    cases ys with
    | nil => simp at hnext
    | cons e' ys =>
        obtain rfl := Option.some.inj hnext
        -- the leaf that follows is the next entry, so its link back is to this one
        have hcut : xs ++ e :: e' :: ys = (xs ++ [e]) ++ e' :: ys := by simp
        rw [leaf?_of_mem (hcut ▸ hp), Option.some.injEq] at hy
        rw [← hy, last_concat]
  · intro hprev
    obtain ⟨e, he, rfl⟩ := List.mem_map.1 hb
    obtain ⟨xs, ys, rfl⟩ := List.append_of_mem he
    rw [leaf?_of_mem hp, Option.some.injEq] at hy
    subst hy
    rcases List.eq_nil_or_concat' xs with rfl | ⟨xs, e', rfl⟩
    · simp at hprev
    · rw [last_concat] at hprev
      obtain rfl := Option.some.inj hprev
      have hcut : xs ++ [e'] ++ e :: ys = xs ++ e' :: e :: ys := by simp
      rw [leaf?_of_mem (hcut ▸ hp), Option.some.injEq] at hx
      rw [← hx, first_cons]

theorem nodup_mid {xs ys : List (Entry V)} {e : Entry V} (h : ((xs ++ e :: ys).map Entry.id).Nodup) :
    e.id ∉ (xs ++ ys).map Entry.id ∧ ((xs ++ ys).map Entry.id).Nodup := by
  rw [List.map_append, List.map_cons, List.nodup_middle, ← List.map_append, List.nodup_cons] at h
  exact h

/-- Among distinct entries, the link to one is the link to the last just if nothing follows it. -/
theorem last_mid_eq_iff {xs ys : List (Entry V)} {e : Entry V} (h : ((xs ++ e :: ys).map Entry.id).Nodup) :
    last (xs ++ e :: ys) = some e.id ↔ ys = [] := by
  constructor
  · intro heq
    by_contra hne
    rw [Entry.last_append_right (List.cons_ne_nil e ys), ← List.singleton_append, Entry.last_append_right hne] at heq
    exact (nodup_mid h).1 (List.map_subset _ (List.subset_append_right xs ys) (Entry.mem_of_last heq))
  · rintro rfl
    exact last_concat xs e

/-- Among distinct entries, the link to one is the link to the first just if nothing comes before it. -/
theorem first_mid_eq_iff {xs ys : List (Entry V)} {e : Entry V} (h : ((xs ++ e :: ys).map Entry.id).Nodup) :
    first (xs ++ e :: ys) = some e.id ↔ xs = [] := by
  constructor
  · intro heq
    by_contra hne
    rw [Entry.first_append_left hne] at heq
    exact (nodup_mid h).1 (List.map_subset _ (List.subset_append_left xs ys) (Entry.mem_of_first heq))
  · rintro rfl
    rfl

/-! ## One entry -/

/-- **A new leaf stands alone.** -/
theorem put_chained {p : Pool V} {es : List (Entry V)} {key : Bytes} {value : V} (hp : p.Chained es)
    (hroom : p.live < slotLimit) :
    (p.put key value).Yields fun (id, p') =>
      id ∉ es.map Entry.id ∧ p'.Chained es ∧ p'.Alone ⟨id, key, value⟩ ∧ p'.live = p.live + 1 ∧
        p.leaf? id = none ∧ p.SameOff p' [id] := by
  refine (put_yields hp.sound hroom).mono ?_
  rintro ⟨id, p'⟩ ⟨hvacant, hp', hleaf, hlive⟩
  have hid : id ∉ es.map Entry.id := by
    intro h
    have := hp.strand.isSome id h
    simp [hvacant] at this
  have hoff := sameOff_update hleaf
  refine ⟨hid, ⟨hp', hoff.strand hp.strand ?_, hp.nodup⟩, ?_, hlive, hvacant, hoff⟩
  · intro id' hid' h
    rw [List.mem_singleton] at h
    exact hid (h ▸ hid')
  · rw [alone_iff, hleaf, Function.update_self]

/-- **Writing a value** changes no link. -/
theorem modify_chained {p : Pool V} {xs ys : List (Entry V)} {e : Entry V} {f : V → V}
    (hp : p.Chained (xs ++ e :: ys)) :
    (p.modify (some e.id) fun leaf => { leaf with value := f leaf.value }).Yields fun p' =>
      p'.Chained (xs ++ { e with value := f e.value } :: ys) ∧ p'.live = p.live ∧ p.SameOff p' [e.id] := by
  have hl := leaf?_of_mem hp
  obtain ⟨hid, hnd⟩ := nodup_mid hp.nodup
  refine (modify_yields hp.sound hl).mono ?_
  rintro p' ⟨hp', hleaf, hlive⟩
  have hoff := sameOff_update hleaf
  rw [List.map_append, List.mem_append, not_or] at hid
  refine ⟨⟨hp', ?_, ?_⟩, hlive, hoff⟩
  · obtain ⟨hxs, -, hys⟩ := strand_append.1 hp.strand
    refine strand_append.2 ⟨?_, ?_, ?_⟩
    · exact hoff.strand hxs fun id hx h => hid.1 (List.mem_singleton.1 h ▸ hx)
    · change p'.leaf? e.id = _
      rw [hleaf, Function.update_self, Option.or_none, Option.or_none]
    · exact hoff.strand hys fun id hy h => hid.2 (List.mem_singleton.1 h ▸ hy)
  · simpa using hp.nodup

/-- **Linking a lone leaf between two parts of a chain** puts it there, whatever else the pool holds. -/
theorem Linked.between_yields {p : Pool V} {xs ys : List (Entry V)} {e : Entry V} (hp : p.Linked (xs ++ ys))
    (he : p.Alone e) (hid : e.id ∉ (xs ++ ys).map Entry.id) :
    (do
      let p ← p.connect (last xs) (some e.id)
      p.connect (some e.id) (first ys) : Edit (Pool V)).Yields fun p' =>
        p'.Linked (xs ++ e :: ys) ∧ p'.live = p.live ∧ p.SameOff p' (e.id :: sides xs ys) := by
  obtain ⟨hxs, hys⟩ := strand_append.1 hp.strand
  have hnd : ((xs ++ e :: ys).map Entry.id).Nodup := by
    rw [List.map_append, List.map_cons, List.nodup_middle, ← List.map_append]
    exact List.nodup_cons.2 ⟨hid, hp.nodup⟩
  have hsplit : (xs ++ [e]) ++ ys = xs ++ e :: ys := by simp
  have hdisj : ∀ id ∈ ys.map Entry.id, id ∉ (xs ++ [e]).map Entry.id := by
    intro id hy hx
    rw [← hsplit, List.map_append] at hnd
    exact (List.nodup_append'.1 hnd).2.2 hx hy
  have hndx : ((xs ++ [e]).map Entry.id).Nodup := by
    rw [← hsplit, List.map_append] at hnd
    exact (List.nodup_append'.1 hnd).1
  -- the first link ties the entry to what is before it, the second ties both to the rest
  have htie := connect_yields hxs (he : p.Strand none [e] none) hndx
  rw [first_cons] at htie
  refine Yields.bind htie ?_
  intro p₁ h₁
  obtain ⟨hxs₁, hlive₁, hoff₁⟩ := h₁
  have hys₁ : p₁.Strand ((last xs).or none) ys none :=
    hoff₁.strand hys fun id hy hx => hdisj id hy (sides_subset xs [e] hx)
  rw [← last_concat xs e]
  refine (connect_yields hxs₁ hys₁ (hsplit ▸ hnd)).mono ?_
  intro p' h'
  obtain ⟨hstrand, hlive, hoff⟩ := h'
  rw [hsplit] at hstrand
  refine ⟨⟨hstrand, hnd⟩, hlive.trans hlive₁, hoff₁.trans hoff ?_ ?_⟩
  · intro id h
    rw [mem_sides, first_cons, Option.some.injEq] at h
    rw [List.mem_cons, mem_sides]
    rcases h with h | h
    · exact Or.inr (Or.inl h)
    · exact Or.inl h.symm
  · intro id h
    rw [mem_sides, last_concat, Option.some.injEq] at h
    rw [List.mem_cons, mem_sides]
    rcases h with h | h
    · exact Or.inl h.symm
    · exact Or.inr (Or.inr h)

theorem Linked.spliceAfter_yields {p : Pool V} {xs ys : List (Entry V)} {e : Entry V} (hp : p.Linked (xs ++ ys))
    (hxs : xs ≠ []) (he : p.Alone e) (hid : e.id ∉ (xs ++ ys).map Entry.id) :
    (p.spliceAfter (last xs) (some e.id)).Yields fun p' =>
      p'.Linked (xs ++ e :: ys) ∧ p'.live = p.live ∧ p.SameOff p' (e.id :: sides xs ys) := by
  obtain ⟨ws, w, rfl⟩ := (List.eq_nil_or_concat' xs).resolve_left hxs
  have hw : p.nextOf (last (ws ++ [w])) = .ok (first ys) := by
    rw [List.append_assoc, List.singleton_append] at hp
    rw [last_concat]
    exact nextOf_ok hp.leaf?_mid
  unfold spliceAfter
  refine Yields.bind_lift hw ?_
  exact hp.between_yields he hid

theorem Linked.spliceBefore_yields {p : Pool V} {xs ys : List (Entry V)} {e : Entry V} (hp : p.Linked (xs ++ ys))
    (hys : ys ≠ []) (he : p.Alone e) (hid : e.id ∉ (xs ++ ys).map Entry.id) :
    (p.spliceBefore (first ys) (some e.id)).Yields fun p' =>
      p'.Linked (xs ++ e :: ys) ∧ p'.live = p.live ∧ p.SameOff p' (e.id :: sides xs ys) := by
  obtain ⟨y, ys, rfl⟩ := List.exists_cons_of_ne_nil hys
  have hy : p.prevOf (first (y :: ys)) = .ok (last xs) := prevOf_ok hp.leaf?_mid
  unfold spliceBefore
  refine Yields.bind_lift hy ?_
  exact hp.between_yields he hid

/-- **Unlinking** takes an entry out of its chain and leaves its leaf alone, whatever else the pool holds. -/
theorem Linked.unlink_yields {p : Pool V} {xs ys : List (Entry V)} {e : Entry V} (hp : p.Linked (xs ++ e :: ys)) :
    (p.unlink (some e.id)).Yields fun p' =>
      p'.Linked (xs ++ ys) ∧ p'.Alone e ∧ p'.live = p.live ∧ p.SameOff p' (e.id :: sides xs ys) := by
  have hl := hp.leaf?_mid
  obtain ⟨hid, hnd⟩ := nodup_mid hp.nodup
  obtain ⟨hxs, -, hys⟩ := strand_append.1 hp.strand
  unfold unlink
  refine Yields.bind_lift (get_ok hl) ?_
  refine Yields.bind (connect_yields hxs hys hnd) ?_
  intro p₁ h₁
  obtain ⟨hstrand₁, hlive₁, hoff₁⟩ := h₁
  -- tying its neighbours together leaves the entry itself as it was
  have hl₁ : p₁.leaf? e.id = some ⟨e.key, e.value, last xs, first ys⟩ := by
    rw [hoff₁ e.id fun h => hid (sides_subset xs ys h), hl]
  refine (modify_sets hl₁).mono ?_
  intro p' h'
  obtain ⟨hslot, -, -, hlive⟩ := h'
  have hleaf := leaf?_update hslot
  have hoff := sameOff_update hleaf
  refine ⟨⟨hoff.strand hstrand₁ ?_, hnd⟩, ?_, hlive.trans hlive₁, hoff₁.trans hoff (List.subset_cons_self _ _) ?_⟩
  · intro id h h'
    exact hid (List.mem_singleton.1 h' ▸ h)
  · rw [alone_iff, hleaf, Function.update_self]
    rfl
  · simp

/-! ## One entry of a sound pool -/

theorem sound_kept_by_modify : KeptByModify fun p : Pool V => p.Sound := fun _ link f hp => hp.modify_keeps link f

theorem sound_kept_by_vacate : KeptByVacate fun p : Pool V => p.Sound := fun _ link hp => hp.vacate_keeps link

theorem Linked.chained {p : Pool V} {es : List (Entry V)} (h : p.Linked es) (hp : p.Sound) : p.Chained es :=
  ⟨hp, h.strand, h.nodup⟩

/-- An entry and what is on either side of it are entries of the chain that they make. -/
theorem sides_subset_mid (xs ys : List (Entry V)) (e : Entry V) :
    e.id :: sides xs ys ⊆ (xs ++ e :: ys).map Entry.id := by
  intro id hid
  rw [List.map_append, List.map_cons, List.mem_append, List.mem_cons]
  rcases List.mem_cons.1 hid with h | h
  · exact Or.inr (Or.inl h)
  · have := sides_subset xs ys h
    rw [List.map_append, List.mem_append] at this
    exact this.imp_right Or.inr

/-- What puts an entry in at its place in any pool keeps a sound one sound. -/
theorem Chained.of_spliced {p : Pool V} {xs ys : List (Entry V)} {e : Entry V} {splice : Edit (Pool V)}
    (h : splice.Yields fun p' => p'.Linked (xs ++ e :: ys) ∧ p'.live = p.live ∧ p.SameOff p' (e.id :: sides xs ys))
    (hsound : splice.Ensures Sound) :
    splice.Yields fun p' =>
      p'.Chained (xs ++ e :: ys) ∧ p'.live = p.live ∧ p.SameOff p' ((xs ++ e :: ys).map Entry.id) := by
  refine (h.with hsound).mono ?_
  intro p' h'
  obtain ⟨⟨hlinked, hlive, hoff⟩, hp'⟩ := h'
  exact ⟨hlinked.chained hp', hlive, hoff.mono (sides_subset_mid xs ys e)⟩

/-- Linking a lone leaf between two strands. -/
theorem link_between_yields {p : Pool V} {xs ys : List (Entry V)} {e : Entry V} (hp : p.Chained (xs ++ ys))
    (he : p.Alone e) (hid : e.id ∉ (xs ++ ys).map Entry.id) :
    (do
      let p ← p.connect (last xs) (some e.id)
      p.connect (some e.id) (first ys) : Edit (Pool V)).Yields fun p' =>
        p'.Chained (xs ++ e :: ys) ∧ p'.live = p.live ∧ p.SameOff p' ((xs ++ e :: ys).map Entry.id) :=
  Chained.of_spliced (hp.linked.between_yields he hid) (sound_kept_by_modify.between hp.sound _ _ _)

theorem spliceAfter_yields {p : Pool V} {xs ys : List (Entry V)} {e : Entry V} (hp : p.Chained (xs ++ ys))
    (hxs : xs ≠ []) (he : p.Alone e) (hid : e.id ∉ (xs ++ ys).map Entry.id) :
    (p.spliceAfter (last xs) (some e.id)).Yields fun p' =>
      p'.Chained (xs ++ e :: ys) ∧ p'.live = p.live ∧ p.SameOff p' ((xs ++ e :: ys).map Entry.id) :=
  Chained.of_spliced (hp.linked.spliceAfter_yields hxs he hid) (sound_kept_by_modify.spliceAfter hp.sound _ _)

theorem spliceBefore_yields {p : Pool V} {xs ys : List (Entry V)} {e : Entry V} (hp : p.Chained (xs ++ ys))
    (hys : ys ≠ []) (he : p.Alone e) (hid : e.id ∉ (xs ++ ys).map Entry.id) :
    (p.spliceBefore (first ys) (some e.id)).Yields fun p' =>
      p'.Chained (xs ++ e :: ys) ∧ p'.live = p.live ∧ p.SameOff p' ((xs ++ e :: ys).map Entry.id) :=
  Chained.of_spliced (hp.linked.spliceBefore_yields hys he hid) (sound_kept_by_modify.spliceBefore hp.sound _ _)

theorem unlink_yields {p : Pool V} {xs ys : List (Entry V)} {e : Entry V} (hp : p.Chained (xs ++ e :: ys)) :
    (p.unlink (some e.id)).Yields fun p' =>
      p'.Chained (xs ++ ys) ∧ p'.Alone e ∧ p'.live = p.live ∧ p.SameOff p' ((xs ++ e :: ys).map Entry.id) := by
  refine (hp.linked.unlink_yields.with (sound_kept_by_modify.unlink hp.sound _)).mono ?_
  intro p' h'
  obtain ⟨⟨hlinked, halone, hlive, hoff⟩, hp'⟩ := h'
  exact ⟨hlinked.chained hp', halone, hlive, hoff.mono (sides_subset_mid xs ys e)⟩

/-- **Freeing a lone leaf.** -/
theorem vacate_alone_yields {p : Pool V} {es : List (Entry V)} {e : Entry V} (hp : p.Chained es)
    (he : p.Alone e) (hid : e.id ∉ es.map Entry.id) :
    (p.vacate (some e.id)).Yields fun (leaf, p') =>
      leaf.value = e.value ∧ p'.Chained es ∧ p'.live + 1 = p.live ∧ p'.leaf? e.id = none ∧
        p.SameOff p' [e.id] := by
  refine (vacate_yields hp.sound (alone_iff.1 he)).mono ?_
  rintro ⟨leaf, p'⟩ ⟨rfl, hp', hleaf, hlive⟩
  have hoff := sameOff_update hleaf
  refine ⟨rfl, ⟨hp', hoff.strand hp.strand ?_, hp.nodup⟩, hlive, ?_, hoff⟩
  · intro id h h'
    exact hid (List.mem_singleton.1 h' ▸ h)
  · rw [hleaf, Function.update_self]

/-! ## Links that are there already -/

theorem reconnect_yields {p : Pool V} {xs ys : List (Entry V)} (hp : p.Chained (xs ++ ys)) :
    (p.connect (last xs) (first ys)).Yields fun p' => p'.Chained (xs ++ ys) ∧ p'.live = p.live := by
  obtain ⟨hxs, hys⟩ := strand_append.1 hp.strand
  refine ((connect_yields hxs hys hp.nodup).with (sound_kept_by_modify.connect hp.sound _ _)).mono ?_
  intro p' h
  obtain ⟨⟨hstrand, hlive, -⟩, hp'⟩ := h
  exact ⟨⟨hp', hstrand, hp.nodup⟩, hlive⟩

/-- Linking the ends of a stretch to what is next to it anyway. -/
theorem relink_yields {p : Pool V} {xs ms ys : List (Entry V)} (hp : p.Chained (xs ++ ms ++ ys)) (hms : ms ≠ []) :
    (do
      let p ← p.connect (last xs) (first ms)
      p.connect (last ms) (first ys) : Edit (Pool V)).Yields fun p' =>
        p'.Chained (xs ++ ms ++ ys) ∧ p'.live = p.live := by
  have hp₀ := hp
  rw [List.append_assoc] at hp₀
  have hfirst := reconnect_yields hp₀
  rw [Entry.first_append_left hms, ← List.append_assoc] at hfirst
  refine Yields.bind hfirst ?_
  rintro p₁ ⟨hp₁, hlive₁⟩
  -- what the first link tied is the chain still, cut in another place
  have hlast : last (xs ++ ms) = last ms := Entry.last_append_right hms
  rw [← hlast]
  refine (reconnect_yields hp₁).mono ?_
  rintro p' ⟨hp', hlive⟩
  exact ⟨hp', hlive.trans hlive₁⟩

/-! ## A run of entries -/

/-- Freeing a strand leaf by leaf. The last leaf is met after as many steps as the strand is long. -/
theorem vacateThrough_yields {ms : List (Entry V)} : ∀ {p : Pool V} {before after : Link} {steps : Nat},
    ms ≠ [] → p.Strand before ms after → (ms.map Entry.id).Nodup → ms.length ≤ steps → ms.length ≤ p.live →
    (vacateThrough (last ms) steps p (first ms)).Yields fun (count, p') =>
      count = ms.length ∧ p'.live + ms.length = p.live ∧
        (∀ id ∈ ms.map Entry.id, p'.IsVacant id) ∧ p.SameOff p' (ms.map Entry.id) := by
  induction ms with
  | nil => intro p before after steps hms; exact absurd rfl hms
  | cons m ms ih =>
      intro p before after steps _ hs hnd hsteps hcount
      rw [List.map_cons, List.nodup_cons] at hnd
      rw [List.length_cons] at hsteps hcount
      obtain ⟨steps, rfl⟩ : ∃ k, steps = k + 1 := ⟨steps - 1, by omega⟩
      rw [first_cons]
      unfold vacateThrough
      refine Yields.bind_lift (nextOf_ok hs.1) ?_
      refine Yields.bind (vacate_sets hs.1) ?_
      rintro ⟨leaf, p₁⟩ ⟨-, hslot₁, -, -, hlive₁⟩
      have hoff₁ := sameOff_update (leaf?_update hslot₁)
      have hvacant₁ : p₁.IsVacant m.id := ⟨p.free, by rw [hslot₁, Function.update_self]⟩
      cases ms with
      | nil =>
          dsimp only
          rw [last_singleton, if_pos rfl]
          refine Yields.pure ⟨rfl, by simp only [List.length_singleton]; omega, ?_, hoff₁⟩
          intro id hid
          exact List.mem_singleton.1 hid ▸ hvacant₁
      | cons m' ms =>
          have hlast : last (m :: m' :: ms) = last (m' :: ms) := by simp [last]
          -- the run goes on, because this leaf is not the last one of it
          have hne : (some m.id : Link) ≠ last (m' :: ms) := fun h => hnd.1 (Entry.mem_of_last h.symm)
          have hs₁ : p₁.Strand (some m.id) (m' :: ms) after := by
            refine hoff₁.strand hs.2 fun id hid h => ?_
            exact hnd.1 (List.mem_singleton.1 h ▸ hid)
          dsimp only
          rw [hlast, if_neg hne, first_cons, Option.some_or, if_neg (by simp)]
          have hrest := ih (by simp) hs₁ hnd.2 (by omega : (m' :: ms).length ≤ steps) (by omega)
          have hstays := (isVacant_kept_by_vacate m.id).vacateThrough hvacant₁ (last (m' :: ms)) steps (some m'.id)
          refine Yields.bind (hrest.with hstays) ?_
          rintro ⟨count, p'⟩ ⟨⟨rfl, hlive, hvacant, hoff⟩, hvacant'⟩
          refine Yields.pure ⟨rfl, ?_, ?_, hoff₁.trans hoff ?_ (List.subset_cons_self _ _)⟩
          · dsimp only at hlive ⊢
            rw [List.length_cons]
            omega
          · intro id hid
            rcases List.mem_cons.1 hid with rfl | hid
            · exact hvacant'
            · exact hvacant id hid
          · simp

/-- **Freeing a run** takes its entries out of their chain, counts them, and joins what was around it, whatever
else the pool holds. -/
theorem Linked.vacateRun_yields {p : Pool V} {xs ms ys : List (Entry V)} (hp : p.Linked (xs ++ ms ++ ys))
    (hms : ms ≠ []) (hcount : ms.length ≤ p.live) :
    (p.vacateRun (first ms) (last ms)).Yields fun (count, p') =>
      count = ms.length ∧ p'.Linked (xs ++ ys) ∧ p'.live + ms.length = p.live ∧
        (∀ id ∈ ms.map Entry.id, p'.IsVacant id) ∧ p.SameOff p' (ms.map Entry.id ++ sides xs ys) := by
  obtain ⟨hxms, hys⟩ := strand_append.1 hp.strand
  obtain ⟨hxs, hs⟩ := strand_append.1 hxms
  have hnd := hp.nodup
  rw [List.map_append, List.map_append, List.append_assoc, List.nodup_append', List.nodup_append'] at hnd
  obtain ⟨hndx, ⟨hndm, hndy, hdmy⟩, hdx⟩ := hnd
  rw [List.disjoint_append_right] at hdx
  have hbefore : p.prevOf (first ms) = .ok (last xs) := by
    obtain ⟨m, rest, rfl⟩ := List.exists_cons_of_ne_nil hms
    rw [first_cons, prevOf_ok hs.1, Option.or_none]
  have hafter : p.nextOf (last ms) = .ok (first ys) := by
    obtain ⟨rest, m, rfl⟩ := (List.eq_nil_or_concat' ms).resolve_left hms
    have hm := (strand_append.1 hs).2.1
    rw [Entry.first_nil, Option.none_or, Option.or_none, Option.or_none] at hm
    rw [last_concat, nextOf_ok hm]
  unfold vacateRun
  refine Yields.bind_lift hbefore ?_
  refine Yields.bind_lift hafter ?_
  refine Yields.bind (vacateThrough_yields hms hs hndm (Nat.le_succ_of_le hcount) hcount) ?_
  rintro ⟨count, p₁⟩ ⟨rfl, hlive₁, hvacant₁, hoff₁⟩
  -- what lies before and after the run shares no leaf with it
  have hxs₁ := hoff₁.strand hxs fun id h h' => hdx.1 h h'
  have hys₁ := hoff₁.strand hys fun id h h' => hdmy h' h
  have hndxy : ((xs ++ ys).map Entry.id).Nodup := by
    rw [List.map_append, List.nodup_append']
    exact ⟨hndx, hndy, hdx.2⟩
  have hstays : (p₁.connect (last xs) (first ys)).Ensures fun p' => ∀ id ∈ ms.map Entry.id, p'.IsVacant id :=
    fun now p' next hrun id hid => (isVacant_kept_by_modify id).connect (hvacant₁ id hid) _ _ now p' next hrun
  refine Yields.bind ((connect_yields hxs₁ hys₁ hndxy).with hstays) ?_
  rintro p' ⟨⟨hstrand, hlive, hoff⟩, hvacant⟩
  refine Yields.pure ⟨rfl, ⟨hstrand, hndxy⟩, by rw [hlive, hlive₁], hvacant, hoff₁.trans hoff ?_ ?_⟩
  · exact List.subset_append_left _ _
  · exact List.subset_append_right _ _

theorem vacateRun_yields {p : Pool V} {xs ms ys : List (Entry V)} (hp : p.Chained (xs ++ ms ++ ys))
    (hms : ms ≠ []) :
    (p.vacateRun (first ms) (last ms)).Yields fun (count, p') =>
      count = ms.length ∧ p'.Chained (xs ++ ys) ∧ p'.live + ms.length = p.live ∧
        (∀ id ∈ ms.map Entry.id, p'.leaf? id = none) ∧
        p.SameOff p' ((xs ++ ms ++ ys).map Entry.id) := by
  -- a sound pool counts every leaf of the run
  have hcount : ms.length ≤ p.live := by
    have hmid := (strand_append.1 (strand_append.1 hp.strand).1).2
    have hnd := hp.nodup
    rw [List.map_append, List.map_append, List.nodup_append', List.nodup_append'] at hnd
    have hlen := hp.sound.length_le_live hnd.1.2.1 hmid.isSome
    rwa [List.length_map] at hlen
  have hsound := sound_kept_by_vacate.vacateRun sound_kept_by_modify hp.sound (first ms) (last ms)
  refine ((hp.linked.vacateRun_yields hms hcount).with hsound).mono ?_
  rintro ⟨count, p'⟩ ⟨⟨hlen, hlinked, hlive, hvacant, hoff⟩, hp'⟩
  refine ⟨hlen, hlinked.chained hp', hlive, fun id hid => (hvacant id hid).leaf?_eq_none, hoff.mono ?_⟩
  intro id hid
  rw [List.map_append, List.map_append, List.mem_append, List.mem_append]
  rcases List.mem_append.1 hid with h | h
  · exact Or.inl (Or.inr h)
  · have := sides_subset xs ys h
    rw [List.map_append, List.mem_append] at this
    exact this.imp_left Or.inl

end OrderedStore.Pool
