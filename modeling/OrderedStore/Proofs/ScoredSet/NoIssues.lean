import Mathlib.Tactic
import OrderedStore.Proofs.OrderedMap.NoIssues
import OrderedStore.Proofs.Score.Embedding
import OrderedStore.Proofs.ScoredSet.Audit
import OrderedStore.Proofs.ScoredSet.Range

/-!
# What a scored set without issues is

An audit that finds nothing has gone over the members twice: bucket by bucket, from the first to the last leaf of
each, and then along the chain from the first leaf of all. Nothing that it looks at compares the two. But both times
the members come in the order of their score keys and names, and both times there are as many of them as leaves are
live. So either time it is all the live leaves, and the two are the same list.

The map of buckets itself is not part of the audit, which takes the buckets as it meets them. A map with issues of its
own may hide some of them, or count them wrong. So it is asked here that an audit of that map finds nothing either.
-/

namespace OrderedStore

variable {V : Type}

/-- What a tier is when an audit finds nothing in its bucket. -/
structure Tier.Clear (z : ScoredSet V) (s : Tier V) : Prop extends s.Fair where
  strand : ∃ before after, z.chain.Strand before s.run after
  agreed : ∀ e ∈ s.run, ∃ a, z.byMember.get? e.key = .ok (some a) ∧ a.score.same e.value.score = true

namespace ScoredSet

open Tier

variable {z : ScoredSet V} {tiers : List (Tier V)} {es : List (Entry (Scored V))} {bs : List (Entry Trie)}
  {a b c e e' : Entry (Scored V)}

theorem KeyBefore.trans (hab : KeyBefore a b) (hbc : KeyBefore b c) : KeyBefore a c := by
  obtain ⟨k, l, hk, hl, hkl⟩ := hab
  obtain ⟨l', m, hl', hm, hlm⟩ := hbc
  obtain rfl := Except.ok.inj (hl.symm.trans hl')
  refine ⟨k, m, hk, hm, ?_⟩
  rcases hkl with hkl | ⟨rfl, hab⟩
  · rcases hlm with hlm | ⟨rfl, -⟩
    · exact Or.inl (UInt64.lt_trans hkl hlm)
    · exact Or.inl hkl
  · rcases hlm with hlm | ⟨rfl, hbc⟩
    · exact Or.inl hlm
    · exact Or.inr ⟨rfl, List.lt_trans hab hbc⟩

theorem KeyBefore.irrefl : ¬ KeyBefore a a := by
  intro h
  obtain ⟨k, l, hk, hl, hlt⟩ := h
  obtain rfl := Except.ok.inj (hk.symm.trans hl)
  rcases hlt with hlt | ⟨-, hlt⟩
  · exact UInt64.lt_irrefl _ hlt
  · exact List.lt_irrefl _ hlt

/-! ## Buckets -/

/-- Members without issues, on a walk that meets them all. -/
theorem of_memberIssues {w : Walk (Scored V)} {key : ScoreKey} {found : List (List Issue)} (hw : w.Reads false es)
    (hfound : w.mapM (z.memberIssues key) = .ok found) (hnil : found.flatten = []) :
    ∀ e ∈ es, ScoreKey.ofScore e.value.score = .ok key ∧
      ∃ a, z.byMember.get? e.key = .ok (some a) ∧ a.score.same e.value.score = true := by
  obtain ⟨leaves, hwork, hitems⟩ := hw.mapM (z.memberIssues key)
  intro e he
  obtain ⟨leaf, hleaf, hitem⟩ := List.mem_map.1 (hitems ▸ List.mem_map_of_mem he)
  obtain ⟨issues, hmem, hissues⟩ := exists_of_mapM_eq_ok (hwork.symm.trans hfound) leaf hleaf
  have hclear : issues = [] := List.flatten_eq_nil_iff.1 hnil issues hmem
  exact (memberIssues_eq_nil_iff hitem).1 (hclear ▸ hissues)

/-- What an audit has looked at in a bucket where it finds nothing. -/
theorem of_bucketIssues {leaf : Leaf Trie} {n : Nat} (h : z.bucketIssues leaf = .ok ([], n)) :
    ∃ key found, leaf.key = key.toBytes ∧ leaf.value.size ≠ 0 ∧ leaf.value.issues z.chain = .ok [] ∧
      (z.walkBetween leaf.value.first leaf.value.last).mapM (z.memberIssues key) = .ok found ∧ found.flatten = [] ∧
      leaf.value.size = n := by
  unfold bucketIssues at h
  cases hread : ScoreKey.ofBytes? leaf.key with
  | none =>
      rw [hread] at h
      cases h
  | some key =>
      rw [hread] at h
      dsimp only at h
      by_cases hempty : leaf.value.isEmpty = true
      · rw [if_pos hempty] at h
        cases h
      · rw [if_neg hempty] at h
        obtain ⟨inTrie, htrie, hrest⟩ := exists_of_bind_eq_ok h
        obtain ⟨found, hfound, hall⟩ := exists_of_bind_eq_ok hrest
        obtain ⟨hnil, hcount⟩ := Prod.mk.inj (Except.ok.inj hall)
        rw [List.append_eq_nil_iff, List.map_eq_nil_iff] at hnil
        obtain ⟨rfl, hnil⟩ := hnil
        refine ⟨key, found, ScoreKey.ofBytes?_eq_some_iff.1 hread, fun hzero => hempty ?_, htrie, hfound, hnil, hcount⟩
        exact beq_iff_eq.2 hzero

/-- **A bucket without issues is a tier**: the strand between its ends has as many members as it counts, in member
order, and each is what the map by member says. -/
theorem exists_tier {leaf : Leaf Trie} {b : Entry Trie} {n : Nat} (hleaf : leaf.item = b.item)
    (h : z.bucketIssues leaf = .ok ([], n)) : ∃ s : Tier V, s.bucket = b ∧ s.Clear z ∧ s.run.length = n := by
  obtain ⟨key, found, hlabel, hsize, htrie, hfound, hnil, hcount⟩ := of_bucketIssues h
  obtain ⟨hkey, hvalue⟩ := Prod.mk.inj hleaf
  rw [hkey] at hlabel
  rw [hvalue] at hsize htrie hfound hcount
  have hbucket := Trie.clear_of_issues htrie
  obtain ⟨fs, hfs, hstores⟩ := hbucket.exists_holds
  obtain ⟨run, before, after, hstrand, hordered, hlength, hfirst, hlast⟩ := hbucket.exists_strand hfs hstores
  have hfilled : run ≠ [] := by
    intro hnone
    rw [hnone] at hlength
    exact hsize hlength.symm
  -- the audit has walked along just this strand
  have hreads : (z.walkBetween b.value.first b.value.last).Reads false run :=
    ⟨Walk.covers_strand hstrand (Pool.nodup_of_stores hordered hstrand.stores) (fun _ => ⟨hfirst, hlast⟩)
      fun hnone => absurd hnone hfilled, rfl, fun _ => rfl⟩
  have hmembers := of_memberIssues hreads hfound hnil
  have hfair : Fair ⟨key, b, run⟩ := ⟨hlabel, hfirst, hlast, hordered, fun e he => (hmembers e he).1, hfilled⟩
  exact ⟨⟨key, b, run⟩, rfl, ⟨hfair, ⟨before, after, hstrand⟩, fun e he => (hmembers e he).2⟩, hlength.trans hcount⟩

/-- Buckets without issues are tiers, and together they count the stock. -/
theorem exists_tiers {leaves : List (Leaf Trie)} {found : List (List Issue × Nat)}
    (hitems : leaves.map Leaf.item = bs.map Entry.item)
    (hfound : List.Forall₂ (fun leaf result => z.bucketIssues leaf = .ok result) leaves found)
    (hnil : (found.map Prod.fst).flatten = []) :
    ∃ tiers : List (Tier V), tiers.map Tier.bucket = bs ∧ (∀ s ∈ tiers, s.Clear z) ∧
      (stock tiers).length = (found.map Prod.snd).foldr (· + ·) 0 := by
  induction hfound generalizing bs with
  | nil =>
      obtain rfl := List.map_eq_nil_iff.1 hitems.symm
      exact ⟨[], rfl, by simp, rfl⟩
  | @cons leaf result leaves found hresult _ ih =>
      obtain ⟨b, bs, rfl, hb, hbs⟩ := List.map_eq_cons_iff.1 hitems.symm
      obtain ⟨issues, n⟩ := result
      rw [List.map_cons, List.flatten_cons, List.append_eq_nil_iff] at hnil
      obtain ⟨rfl, hnil⟩ := hnil
      obtain ⟨s, rfl, hs, hlength⟩ := exists_tier hb.symm hresult
      obtain ⟨tiers, rfl, htiers, htotal⟩ := ih hbs.symm hnil
      refine ⟨s :: tiers, rfl, List.forall_mem_cons.2 ⟨hs, htiers⟩, ?_⟩
      rw [stock_cons, List.length_append, hlength, htotal]
      rfl

theorem stores_of_clear (h : ∀ s ∈ tiers, s.Clear z) : ∀ e ∈ stock tiers, z.chain.Stores e := by
  intro e he
  obtain ⟨s, hs, hrun⟩ := mem_stock.1 he
  obtain ⟨before, after, hstrand⟩ := (h s hs).strand
  exact hstrand.stores e hrun

/-! ## The chain -/

/-- One step along the chain without issues: it ends here with every member visited, or goes on to a leaf that is linked
with this one and comes after it. -/
theorem of_followChain {room visited : Nat} {id : LeafId} {leaf : Leaf (Scored V)}
    (hleaf : z.chain.leaf? id = some leaf) (h : z.followChain room visited (some id) = .ok []) :
    (leaf.next = none ∧ visited = z.card) ∨
      ∃ room' id' leaf', room = room' + 1 ∧ leaf.next = some id' ∧ z.chain.leaf? id' = some leaf' ∧
        leaf'.prev = some id ∧ KeyBefore (leaf.entry id) (leaf'.entry id') ∧
        z.followChain room' (visited + 1) (some id') = .ok [] := by
  cases room with
  | zero =>
      rw [followChain_zero] at h
      obtain ⟨next, hnext, hgoes⟩ := exists_of_bind_eq_ok h
      rw [Pool.nextOf_ok hleaf, Except.ok.injEq] at hnext
      by_cases hnone : next = none
      · rw [if_pos hnone] at hgoes
        exact Or.inl ⟨hnext.trans hnone, ite_eq_nil_iff.1 (Except.ok.inj hgoes)⟩
      · rw [if_neg hnone] at hgoes
        obtain ⟨found, -, hrest⟩ := exists_of_bind_eq_ok hgoes
        exact absurd (Except.ok.inj hrest) (by simp)
  | succ room =>
      rw [followChain_succ] at h
      obtain ⟨next, hnext, hgoes⟩ := exists_of_bind_eq_ok h
      rw [Pool.nextOf_ok hleaf, Except.ok.injEq] at hnext
      by_cases hnone : next = none
      · rw [if_pos hnone] at hgoes
        exact Or.inl ⟨hnext.trans hnone, ite_eq_nil_iff.1 (Except.ok.inj hgoes)⟩
      · rw [if_neg hnone] at hgoes
        obtain ⟨found, hlink, hrest⟩ := exists_of_bind_eq_ok hgoes
        obtain ⟨further, hfurther, hall⟩ := exists_of_bind_eq_ok hrest
        have hnil := Except.ok.inj hall
        rw [List.append_eq_nil_iff] at hnil
        obtain ⟨rfl, rfl⟩ := hnil
        obtain ⟨here, there, hhere, hthere, hprev, hlt⟩ := linkIssues_eq_nil_iff.1 hlink
        obtain ⟨id', hid', hleaf'⟩ := Pool.get_eq_ok hthere
        rw [Pool.get_ok hleaf, Except.ok.injEq] at hhere
        subst hhere
        exact Or.inr ⟨room, id', there, rfl, hnext.trans hid', hleaf', hprev, (precedes_eq_true_iff rfl rfl).1 hlt,
          hid' ▸ hfurther⟩

/-- **A chain without issues is a strand** of members in chain order to its very end, and the audit has counted them.
By recursion on the room that is left. -/
theorem strand_of_followChain {room visited : Nat} {id : LeafId} {leaf : Leaf (Scored V)}
    (hleaf : z.chain.leaf? id = some leaf) (h : z.followChain room visited (some id) = .ok []) :
    ∃ rest, z.chain.Strand leaf.prev (leaf.entry id :: rest) none ∧ (leaf.entry id :: rest).Pairwise KeyBefore ∧
      visited + rest.length = z.card := by
  rcases of_followChain hleaf h with ⟨hend, hvisited⟩ | ⟨room', id', leaf', hroom, hnext, hleaf', hprev, hlt, hfurther⟩
  · refine ⟨[], ⟨hleaf.trans ?_, trivial⟩, List.pairwise_singleton _ _, hvisited⟩
    rw [Entry.first, List.head?_nil, Option.map_none, Option.none_or, ← hend]
    rfl
  · obtain ⟨rest, hstrand, hordered, hcount⟩ := strand_of_followChain hleaf' hfurther
    rw [hprev] at hstrand
    refine ⟨leaf'.entry id' :: rest, ⟨?_, hstrand⟩, ?_, ?_⟩
    · rw [Entry.first_cons, Option.some_or, show some (leaf'.entry id').id = leaf.next from hnext.symm]
      exact hleaf
    · refine List.pairwise_cons.2 ⟨fun e he => ?_, hordered⟩
      rcases List.mem_cons.1 he with rfl | he
      · exact hlt
      · exact hlt.trans ((List.pairwise_cons.1 hordered).1 e he)
    · rw [List.length_cons]
      omega
termination_by room
decreasing_by omega

/-- What the chain goes through from the first leaf of all. -/
theorem Shelved.exists_chain (h : z.Shelved tiers) (hstores : ∀ e ∈ stock tiers, z.chain.Stores e) (hne : tiers ≠ [])
    (hchain : z.chainIssues = .ok []) :
    ∃ es, z.chain.Strand none es none ∧ es.Pairwise KeyBefore ∧ es.length = z.card := by
  obtain ⟨first, last, hfirst, -, hends⟩ := h.ends?_eq hne
  unfold chainIssues at hchain
  obtain ⟨ends, hknown, hrest⟩ := exists_of_bind_eq_ok hchain
  rw [hends, Except.ok.injEq] at hknown
  subst hknown
  obtain ⟨before, hbefore, hrest⟩ := exists_of_bind_eq_ok hrest
  obtain ⟨found, hfound, hall⟩ := exists_of_bind_eq_ok hrest
  have hnil := Except.ok.inj hall
  rw [List.append_eq_nil_iff, ite_eq_nil_iff] at hnil
  obtain ⟨rfl, rfl⟩ := hnil
  obtain ⟨e, he, rfl⟩ := List.mem_map.1 (Entry.mem_of_first hfirst)
  obtain ⟨leaf, hleaf, -⟩ := hstores e he
  obtain ⟨rest, hstrand, hordered, hcount⟩ := strand_of_followChain hleaf hfound
  rw [Pool.prevOf_ok hleaf, Except.ok.injEq] at hbefore
  rw [hbefore] at hstrand
  exact ⟨_, hstrand, hordered, by rw [List.length_cons]; omega⟩

/-! ## The whole set -/

/-- What a set shows when neither it nor its map of buckets has issues. -/
structure Clear (z : ScoredSet V) (tiers : List (Tier V)) : Prop extends z.Shows tiers where
  inMap : z.byMember.Clear
  clear : ∀ s ∈ tiers, s.Clear z
  count : (stock tiers).length = z.card

/-- **The buckets and the chain of a set without issues have the same members**, and these are all the live leaves. -/
theorem clear_of_issues (hbuckets : z.buckets.leaves.CountsLive) (hchain : z.chain.CountsLive)
    (hindex : z.buckets.issues = .ok []) (h : z.issues = .ok []) : ∃ tiers, z.Clear tiers := by
  unfold issues at h
  obtain ⟨inMap, hmap, hrest⟩ := exists_of_bind_eq_ok h
  obtain ⟨found, hfound, hrest⟩ := exists_of_bind_eq_ok hrest
  obtain ⟨chain, hlinks, hall⟩ := exists_of_bind_eq_ok hrest
  have hnil := Except.ok.inj hall
  simp only [List.append_eq_nil_iff, List.map_eq_nil_iff, ite_eq_nil_iff] at hnil
  obtain ⟨⟨⟨⟨rfl, hempty⟩, htotal⟩, hlive⟩, rfl⟩ := hnil
  obtain ⟨bs, hbs, -⟩ := (OrderedMap.clear_of_issues hindex).exists_shows hbuckets
  obtain ⟨leaves, hwork, hitems⟩ := hbs.walk_reads.mapM z.bucketIssues
  obtain ⟨tiers, rfl, hclear, hlength⟩ :=
    exists_tiers hitems (forall₂_of_mapM_eq_ok (hwork.symm.trans hfound)) hempty
  have hshelved : z.Shelved tiers := ⟨hbs, fun s hs => (hclear s hs).toFair⟩
  have hstores := stores_of_clear hclear
  have hordered := hshelved.stock_keyBefore
  -- the total may have wrapped, but the stock is no longer than what is live
  have hstock : z.chain.live = (stock tiers).length := by
    have hle := hchain.length_le (Pool.nodup_of_pairwise (fun _ => KeyBefore.irrefl) hordered hstores) hstores
    have hwrapped : z.chain.live = (stock tiers).length % Count.bound := hlive.trans (congrArg (· % Count.bound) hlength.symm)
    have hmod := Nat.mod_le (stock tiers).length Count.bound
    omega
  have hcard : (stock tiers).length = z.card := by rw [← hstock, hlive, htotal]
  have hlinked : z.chain.Linked (stock tiers) := by
    by_cases hne : tiers = []
    · rw [hne]
      exact ⟨trivial, List.nodup_nil⟩
    · obtain ⟨es, hstrand, ho, hes⟩ := hshelved.exists_chain hstores hne hlinks
      have hasymm : ∀ e f : Entry (Scored V), KeyBefore e f → ¬ KeyBefore f e :=
        fun e f hef hfe => (hef.trans hfe).irrefl
      obtain rfl := hchain.eq_of_pairwise hasymm hordered ho hstores hstrand.stores hstock (by omega)
      exact ⟨hstrand, Pool.nodup_of_pairwise (fun _ => KeyBefore.irrefl) hordered hstores⟩
  exact ⟨tiers, ⟨hshelved, hlinked⟩, OrderedMap.clear_of_issues hmap, hclear, hcard⟩

end ScoredSet

end OrderedStore
