import Mathlib.Tactic
import OrderedStore.Proofs.OrderedMap.Searches
import OrderedStore.Proofs.Trie.NoIssues

/-!
# What a map without issues is

An audit that finds nothing leaves two lists of entries: the one that the trie holds and the one that the chain goes
through. Nothing that the audit looks at compares the two. But both are in key order and stored in the pool, and both
are as long as the map is large, which is how many leaves are live. So either one has all the live leaves, and they
are the same list. That is all that reads depend on, whatever else is wrong with the map.
-/

namespace OrderedStore.OrderedMap

variable {V : Type} {m : OrderedMap V} {es : List (Entry V)}

/-- What a map shows when it has no issues. -/
structure Clear (m : OrderedMap V) : Prop where
  trie : Trie.Clear m.leaves m.trie
  first : ∃ met, m.first? = .ok met ∧ met.bind Leaf.prev = none
  last : ∃ met, m.last? = .ok met ∧ met.bind Leaf.next = none
  live : m.leaves.live = m.size

theorem clear_of_issues (h : m.issues = .ok []) : m.Clear := by
  unfold issues at h
  obtain ⟨inTrie, htrie, hrest⟩ := exists_of_bind_eq_ok h
  obtain ⟨first, hfirst, hrest⟩ := exists_of_bind_eq_ok hrest
  obtain ⟨last, hlast, hall⟩ := exists_of_bind_eq_ok hrest
  have hnil := Except.ok.inj hall
  simp only [List.append_eq_nil_iff, List.map_eq_nil_iff, ite_eq_nil_iff] at hnil
  obtain ⟨⟨⟨rfl, hprev⟩, hnext⟩, hlive⟩ := hnil
  exact ⟨Trie.clear_of_issues htrie, ⟨first, hfirst, hprev⟩, ⟨last, hlast, hnext⟩, hlive⟩

/-- A strand of the entries that the trie holds is a whole chain, since nothing comes before its first leaf or after
its last one. -/
theorem Clear.strand (h : m.Clear) (hes : m.trie.Holds es) {before after : Link}
    (hstrand : m.leaves.Strand before es after) : m.leaves.Strand none es none := by
  by_cases hnil : es = []
  · rw [hnil]
    trivial
  · have hbefore : before = none := by
      obtain ⟨e, rest, rfl⟩ := List.exists_cons_of_ne_nil hnil
      obtain ⟨met, hmet, hprev⟩ := h.first
      unfold first? at hmet
      rw [hes.first_eq, Entry.first_cons, leafAt_ok hstrand.1] at hmet
      obtain rfl := Except.ok.inj hmet
      exact hprev
    have hafter : after = none := by
      obtain ⟨front, e, rfl⟩ := (List.eq_nil_or_concat' es).resolve_left hnil
      obtain ⟨met, hmet, hnext⟩ := h.last
      unfold last? at hmet
      rw [hes.last_eq, Entry.last_concat, leafAt_ok hstrand.leaf?_mid] at hmet
      obtain rfl := Except.ok.inj hmet
      exact hnext
    rwa [hbefore, hafter] at hstrand

/-- **The trie and the chain of a map without issues have the same entries**, and these are all the live leaves. -/
theorem Clear.exists_shows (h : m.Clear) (hcount : m.leaves.CountsLive) :
    ∃ es, m.Shows es ∧ m.leaves.ConsistsOf es := by
  obtain ⟨fs, hfs, hstores⟩ := h.trie.exists_holds
  obtain ⟨es, before, after, hstrand, ho, hlen, -⟩ := h.trie.exists_strand hfs hstores
  have hall := hcount.consistsOf ho hstrand.stores (h.live.trans hlen.symm)
  obtain rfl := hall.unique (hcount.consistsOf hfs.ordered hstores (h.live.trans hfs.size))
  exact ⟨es, ⟨hfs, h.strand hfs hstrand, Pool.nodup_of_stores ho hstores⟩, hall⟩

/-- **A map without issues reads like what its live leaves form**, however damaged it may be otherwise. -/
theorem readsLike_of_no_issues (hcount : m.leaves.CountsLive) (h : m.issues = .ok []) :
    ∃ s, m.leaves.Forms s ∧ m.ReadsLike s := by
  obtain ⟨es, hshows, hall⟩ := (clear_of_issues h).exists_shows hcount
  obtain ⟨s, hs⟩ := FiniteMap.exists_lists hall.ordered
  exact ⟨s, hall.forms hs, hshows.readsLike hs⟩

/-- A map whose pool has lost count of its slots and has a live one on its free list. -/
def misled : OrderedMap Nat := { nested with leaves := { nested.leaves with opened := 0, free := some ⟨0⟩ } }

theorem misled_reads :
    ¬ misled.leaves.Sound ∧ misled.leaves.CountsLive ∧ misled.issues = .ok [] ∧
      ∃ s, misled.leaves.Forms s ∧ misled.ReadsLike s := by
  have hunsound : ¬ misled.leaves.Sound := by
    intro hsound
    obtain ⟨ids, -, -, -, hcount⟩ := hsound.free
    have hlive : misled.leaves.live = 4 := by decide +kernel
    have hopened : misled.leaves.opened = 0 := rfl
    omega
  -- neither the leaves nor their count are touched by the damage
  have hcount : misled.leaves.CountsLive := by
    have hreachable : nested.Reachable := ⟨0, 8, LeadsTo.here.afterAll 1 _⟩
    obtain ⟨limit, s, -, es, hm, -⟩ := hreachable.represents
    exact hm.sound.countsLive
  have hissues : misled.issues = .ok [] := by decide +kernel
  exact ⟨hunsound, hcount, hissues, readsLike_of_no_issues hcount hissues⟩

end OrderedStore.OrderedMap
