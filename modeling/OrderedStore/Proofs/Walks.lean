import Mathlib.Tactic
import OrderedStore.Proofs.OrderedMap.Searches
import OrderedStore.Proofs.ScoredSet.Window
import OrderedStore.Proofs.Store.Admissible
import OrderedStore.Proofs.Walk.BothEnds

/-!
# Walks taken from both ends lose and repeat nothing

Every walk that a map or a scored set gives has a listing: the rows of its stretch, the rows of a stretch that pass
a test, or the members by score. Steps taken from its two ends in any order get that listing from both ends, until
they meet. Which leaves lie between the ends, whether the chain goes on behind them and how many leaves a test
passes over makes no difference.
-/

namespace OrderedStore

variable {V α : Type}

namespace OrderedMap

variable {m : OrderedMap V} {s : FiniteMap V} {limit : Nat}

/-- No two rows of a stretch have one key. -/
theorem Stretch.select_distinct {rows : List (Bytes × α)} (h : (rows.map Prod.fst).Nodup) (part : Stretch) :
    ((part.select rows).map Prod.fst).Nodup := by
  have hfilter (test : Bytes × α → Bool) : ((rows.filter test).map Prod.fst).Nodup :=
    h.sublist (List.filter_sublist.map Prod.fst)
  cases part with
  | all => exact h
  | under start => exact hfilter _
  | upFrom key => exact hfilter _
  | downFrom key =>
      rw [select, List.map_reverse, List.nodup_reverse]
      exact hfilter _
  | matching start keeps => exact (hfilter _).sublist (List.filter_sublist.map Prod.fst)

theorem Represents.gives (h : Represents limit m s) (part : Stretch) :
    (m.walkOver part).Gives (part.select s.byKey) := by
  obtain ⟨-, es, hm, hs⟩ := h
  obtain ⟨ms, hcovers, hrows⟩ := hm.toShows.walkOver_rows hs part
  exact hcovers.gives hrows (part.select_distinct s.byKey_distinct)

end OrderedMap

theorem ScoredSet.Represents.gives {z : ScoredSet V} {s : FiniteMap (Scored V)} {limit : Nat}
    (h : ScoredSet.Represents limit z s) : ∃ w, z.walk = .ok w ∧ w.Gives s.byScore := by
  obtain ⟨-, es, tiers, hz, hs⟩ := h
  obtain ⟨w, hwalk, hreads⟩ := hz.tiered.shows.walk_reads
  refine ⟨w, hwalk, hreads.covers.gives ?_ ?_⟩
  · rw [hreads.kept, along_false, hz.stock_eq hs]
  · exact (((List.mergeSort_perm _ _).map Prod.fst).nodup_iff).2 s.byKey_distinct

/-- The keys that fit a pattern, given what reads patterns. -/
theorem Keyspace.Represents.matchingKeys_eq {k : Keyspace} {config : Config} {c : Contents}
    (h : k.Represents config c) {read? : String → Option (Bytes → Bool)} {pattern : String} {keeps : Bytes → Bool}
    (hread : read? pattern = some keeps) :
    k.matchingKeys read? pattern = .ok (.ok ((c.values.byKey.filter fun row => keeps row.1).map Prod.fst)) := by
  obtain ⟨leaves, hleaves, hitems⟩ := exists_of_map_eq_ok (h.values.readsLike.forth (.matching [] keeps))
  -- every key starts with no bytes
  have hall : c.values.byKey.filter (fun row => [] <+: row.1) = c.values.byKey :=
    List.filter_eq_self.2 fun row _ => decide_eq_true List.nil_prefix
  rw [OrderedMap.Stretch.select, hall] at hitems
  unfold Keyspace.matchingKeys OrderedMap.walkFitting
  rw [hread, ← hitems, List.map_map]
  dsimp only
  rw [show (k.values.walkMatching [] keeps).toList = .ok leaves from hleaves]
  rfl

theorem Keyspace.matchingKeys_refused (k : Keyspace) {read? : String → Option (Bytes → Bool)} {pattern : String}
    (hread : read? pattern = none) : k.matchingKeys read? pattern = .ok (.error .invalidPattern) := by
  unfold Keyspace.matchingKeys OrderedMap.walkFitting
  rw [hread]

/-- The walks over a map give the rows of their stretches, and the walk over the keys that fit a pattern gives those
that pass the test it is read as. -/
def OrderedMap.GivesRows (m : OrderedMap V) : Prop :=
  ∃ s, m.Agrees s ∧ (∀ part, (m.walkOver part).Gives (part.select s.byKey)) ∧
    ∀ read? start pattern keeps, read? pattern = some keeps → ∃ w, m.walkFitting read? start pattern = .ok w ∧
      w.Gives ((Stretch.matching start keeps).select s.byKey)

/-- The walk over a scored set gives its members by score. -/
def ScoredSet.GivesMembers (z : ScoredSet V) : Prop := ∃ s w, z.Agrees s ∧ z.walk = .ok w ∧ w.Gives s.byScore

/-- Whatever reads patterns, the keys that fit one are those of all rows that pass its test, and a text that is no
pattern is refused. -/
def Keyspace.ListsMatching (k : Keyspace) : Prop :=
  ∃ s, k.values.Agrees s ∧ ∀ (read? : String → Option (Bytes → Bool)) (pattern : String),
    (∀ keeps, read? pattern = some keeps →
      k.matchingKeys read? pattern = .ok (.ok ((s.byKey.filter fun row => keeps row.1).map Prod.fst))) ∧
    (read? pattern = none → k.matchingKeys read? pattern = .ok (.error .invalidPattern))

/-- **Whichever end the next step is taken from**, walks over reachable maps and scored sets give their listings from
both ends. In a store the keys that fit a pattern are, at every moment, those of the listing that pass its test. -/
theorem walks_give :
    (∀ m : OrderedMap V, m.Reachable → m.GivesRows) ∧ (∀ z : ScoredSet V, z.Reachable → z.GivesMembers) ∧
      ∀ (config : Config) (scene : Scene), Scene.Reachable config scene → scene.Throughout Keyspace.ListsMatching := by
  refine ⟨fun m hm => ?_, fun z hz => ?_, fun config scene hscene => ?_⟩
  · obtain ⟨limit, s, hrep⟩ := hm.represents
    refine ⟨s, hrep.agrees, hrep.gives, fun read? start pattern keeps hread => ?_⟩
    refine ⟨m.walkMatching start keeps, ?_, hrep.gives (.matching start keeps)⟩
    unfold OrderedMap.walkFitting
    rw [hread]
  · obtain ⟨limit, s, hrep⟩ := hz.represents
    obtain ⟨w, hwalk, hgives⟩ := hrep.gives
    exact ⟨s, w, hrep.agrees, hwalk, hgives⟩
  · refine hscene.keeps.mono ?_
    rintro k ⟨c, hk, -⟩
    exact ⟨c.values, hk.values.agrees, fun read? pattern => ⟨fun keeps => hk.matchingKeys_eq, k.matchingKeys_refused⟩⟩

/-- A reader that knows one pattern, a letter that fits every key with its byte. -/
def readB? (pattern : String) : Option (Bytes → Bool) :=
  if pattern = "b" then some fun key => key.contains 98 else none

/-- Three keys are stored, two of them with the byte. -/
def storesThree : Program Empty Unit :=
  .write (.set [98] []) fun _ => .write (.set [97] []) fun _ => .write (.set [97, 98] []) fun _ => .done ()

/-- The store with them. -/
def withThree : Store :=
  match (Store.empty {}).transaction storesThree with
  | .ok (_, s) => s
  | .error _ => .empty {}

/-- Among them are a walk that passes over a key it does not keep, taken from its far end first and on beyond its end,
and a published keyspace with keys that fit a pattern and one that does not. -/
theorem nested_walks_give :
    (OrderedMap.nested.Reachable ∧ OrderedMap.nested.GivesRows) ∧
      (ScoredSet.bothZeros.Reachable ∧ ScoredSet.bothZeros.GivesMembers) ∧
      (∃ scene, Scene.Reachable {} scene ∧ scene.Throughout Keyspace.ListsMatching ∧ scene.store = withThree ∧
        withThree.published.matchingKeys readB? "b" = .ok (.ok [[97, 98], [98]]) ∧
        withThree.published.matchingKeys readB? "(" = .ok (.error .invalidPattern)) ∧
      List.map (Option.map Leaf.key) <$>
        (OrderedMap.nested.walkOver (.matching [1] fun key => key.length != 1)).drive [true, false, false, true] =
          .ok [some [1, 2, 5], some [1, 2, 3], none, none] := by
  have hnested : OrderedMap.nested.Reachable := ⟨0, 8, LeadsTo.here.afterAll 1 _⟩
  have hzeros : ScoredSet.bothZeros.Reachable := ⟨8, 0, _, 2, rfl, LeadsTo.here.afterAll 2 _⟩
  obtain ⟨hmaps, hsets, hlists⟩ := walks_give (V := Nat)
  have hstores : ((storesThree.run { space := (Store.empty {}).working }).run (Store.empty {}).supply).map
      (fun r => r.1.1) = .ok (.ok ()) := by
    decide +kernel
  have hstart : Scene.Reachable {} (Scene.start {}) := .start
  obtain ⟨_, store, houtcome, hleaves⟩ := (hstart.sound.transaction_endsAs rfl storesThree).of_answer hstores rfl
  obtain ⟨scene, hsteps, -, hstore, -⟩ := hleaves.steps
  have hscene := hstart.steps hsteps
  have hthree : scene.store = withThree := by
    rw [hstore, withThree, show (Store.empty {}).transaction storesThree = _ from houtcome]
  exact ⟨⟨hnested, hmaps _ hnested⟩, ⟨hzeros, hsets _ hzeros⟩,
    ⟨scene, hscene, hlists _ _ hscene, hthree, by decide +kernel, by decide +kernel⟩, by decide +kernel⟩

end OrderedStore
