import TransitChanges.Proofs.Restoring

/-!
# Connections taken apart

Degrees and intermediate routes that were made from one numbering and one list of interchanges tell
the same connections.  A pair has intermediate routes at a degree from 2 on exactly if that is its
degree, and they are the routes in between: one degree nearer to its first route and one change from
its second.  So nothing is missing where a connection is taken apart into the interchanges behind
it, and nothing is there that the degrees do not ask for.

This holds for every numbering there is, built or told by records (`Numbering.IsMade`).  Records may
name their routes as the source does not, and then names do not lead to routes of that name; all
that is used is that no two names lead to one index.

* `exists_behind_iff`, `isBetween_of_behind`: the pairs with intermediate routes, and which these are.
* `countAt_build`: they are counted as the pairs of the degree are.
* `exists_splits`: each intermediate route splits its pair once, in the order of the indexes.
-/

namespace TransitChanges

open Bits SampleCity

/-- A route lies between a pair at a degree: it is one degree nearer to the first route, and one
change leads from it to the second. -/
def Degrees.IsBetween (t : Degrees) (degree : Nat) (pair : RoutePair) (via : Nat) : Prop :=
  t.degreeOf ⟨pair.first, via⟩ = some (degree - 1) ∧ t.degreeOf ⟨via, pair.second⟩ = some 1

namespace Vias

variable {n : Numbering} {interchanges : List Interchange} {t : Degrees} {d : Nat} {pair : RoutePair}
  {vias : Bitmap}

/-! ## The pairs that are recorded -/

section Recorded

variable (hn : n.NamesApart) (ht : Degrees.build n n.sharedDates interchanges = .ok t)

include hn ht in
/-- A pair has intermediate routes at its degree and at no other. -/
theorem exists_behind_iff (hpos : 2 ≤ d) (hle : d ≤ maxDegree) :
    (∃ vias, (build n.sharedDates t).behind n ⟨d, pair⟩ = .ok vias) ↔
      t.degreeOf pair = some d := by
  rw [Degrees.degreeOf_eq_some_iff_isAt hn ht (by omega) hle]
  constructor
  · rintro ⟨vias, hbehind⟩
    exact (getElem?_build_iff.mp (behind_eq_ok_iff.mp hbehind).2).2.1
  · intro hat
    obtain ⟨k, rfl⟩ := Nat.exists_eq_add_of_le' (show 1 ≤ d by omega)
    obtain ⟨vias, hbehind, -⟩ := exists_behind_of_isAt hn ht (by omega) hle hat
    exact ⟨vias, hbehind⟩

include hn ht in
/-- **The intermediate routes of a pair are those in between**, and there are some. -/
theorem isBetween_of_behind (hpos : 2 ≤ d) (hle : d ≤ maxDegree)
    (hbehind : (build n.sharedDates t).behind n ⟨d, pair⟩ = .ok vias) :
    vias.isEmpty = false ∧ ∀ via, vias.get via = true ↔ t.IsBetween d pair via := by
  have hdegree := (exists_behind_iff hn ht hpos hle).mp ⟨vias, hbehind⟩
  rw [Degrees.degreeOf_eq_some_iff_isAt hn ht (by omega) hle] at hdegree
  obtain ⟨k, rfl⟩ := Nat.exists_eq_add_of_le' (show 1 ≤ d by omega)
  obtain ⟨vias', hbehind', hsome, hget⟩ := exists_behind_of_isAt hn ht (by omega) hle hdegree
  obtain rfl := Except.ok.inj (hbehind.symm.trans hbehind')
  refine ⟨hsome, fun via => ?_⟩
  rw [hget, Degrees.IsBetween, Nat.add_sub_cancel,
    Degrees.degreeOf_eq_some_iff_isAt hn ht (by omega) (by omega),
    Degrees.degreeOf_eq_some_iff_isAt hn ht (Nat.le_refl 1) (by decide)]

end Recorded

/-! ## How many there are -/

/-- A position in the matrix of a degree, as a connection. -/
def connectionAt (degree : Nat) (position : Nat × Nat) : Connection :=
  ⟨degree, position.1, position.2⟩

theorem connectionAt_injective (degree : Nat) : Function.Injective (connectionAt degree) := by
  rintro ⟨i, j⟩ ⟨k, l⟩ h
  cases h
  rfl

theorem mem_keys_build_iff {shared : BitMatrix} {c : Connection} :
    c ∈ (build shared t).routes.keys ↔ ∃ vias, (build shared t).routes[c]? = some vias := by
  rw [Std.TreeMap.mem_keys, Std.TreeMap.mem_iff_isSome_getElem?, Option.isSome_iff_exists]

/-- Outside the degrees from 2 on there are no intermediate routes. -/
theorem countAt_build_eq_zero (shared : BitMatrix) (t : Degrees) (hd : ¬ (2 ≤ d ∧ d ≤ maxDegree)) :
    (build shared t).countAt d = 0 := by
  rw [countAt, List.countP_eq_zero]
  intro c hc hdegree
  obtain ⟨vias, hvias⟩ := mem_keys_build_iff.mp hc
  rw [← of_decide_eq_true hdegree] at hd
  exact hd (getElem?_build_iff.mp hvias).1

/-- **As many pairs have intermediate routes at a degree as are recorded at it.** -/
theorem countAt_build (hn : n.NamesApart) (ht : Degrees.build n n.sharedDates interchanges = .ok t)
    (hpos : 2 ≤ d) (hle : d ≤ maxDegree) :
    (build n.sharedDates t).countAt d = (t.level d).count := by
  have hmem (c : Connection) : c ∈ (build n.sharedDates t).routes.keys.filter (·.degree = d) ↔
      c.degree = d ∧ t.isAt d c.pair = true := by
    rw [List.mem_filter, mem_keys_build_iff, decide_eq_true_eq, and_comm]
    refine and_congr_right ?_
    rintro rfl
    rw [← Degrees.degreeOf_eq_some_iff_isAt hn ht (by omega) hle,
      ← exists_behind_iff hn ht hpos hle]
    exact exists_congr fun vias => (and_iff_right ⟨hpos, hle⟩).symm.trans behind_eq_ok_iff.symm
  have hkeys : (build n.sharedDates t).routes.keys.Nodup := Std.TreeMap.nodup_keys
  rw [countAt, List.countP_eq_length_filter]
  refine (BitMatrix.count_eq_length (connectionAt_injective d) (hkeys.filter _) fun c => ?_).symm
  rw [hmem]
  constructor
  · rintro ⟨rfl, hat⟩
    exact ⟨c.pair.first, c.pair.second, hat, rfl⟩
  · rintro ⟨i, j, hget, rfl⟩
    exact ⟨rfl, hget⟩

/-! ## Splitting a pair -/

/-- A split goes by way of an indexed route: to it from the first route, and on to the second. -/
def SplitsAt (n : Numbering) (first second : Route) (via : Nat)
    (split : (RouteId × RouteId) × (RouteId × RouteId)) : Prop :=
  ∃ r, n.routes[via]? = some r ∧ split = ((first.id, r.id), (r.id, second.id))

/-- Where the routes that are involved have indexes, each intermediate route gives one split. -/
theorem exists_splits {v : Vias} {c : Connection} {first second : Route}
    (hfirst : n.routes[c.pair.first]? = some first)
    (hsecond : n.routes[c.pair.second]? = some second) (hbehind : v.behind n c = .ok vias)
    (hlt : ∀ via, vias.get via = true → via < n.size) :
    ∃ splits, v.splits n c = .ok splits ∧
      List.Forall₂ (SplitsAt n first second) vias.toList splits := by
  rw [splits, Numbering.routeAt_eq_ok_iff.mpr hfirst, Numbering.routeAt_eq_ok_iff.mpr hsecond,
    hbehind]
  have hall : ∀ via ∈ vias.toList, via < n.size := fun via hvia => hlt via (Bitmap.mem_toList.mp hvia)
  dsimp only [bind, Except.bind]
  generalize vias.toList = indexes at hall
  induction indexes with
  | nil => exact ⟨[], rfl, .nil⟩
  | cons via indexes ih =>
    obtain ⟨hvia, hindexes⟩ := List.forall_mem_cons.mp hall
    obtain ⟨splits, hsplits, hforall⟩ := ih hindexes
    have hroute := Array.getElem?_eq_getElem hvia
    refine ⟨_ :: splits, ?_, .cons ⟨_, hroute, rfl⟩ hforall⟩
    rw [List.mapM_cons, Numbering.routeAt_eq_ok_iff.mpr hroute, hsplits]
    rfl

/-! ## The connections as a whole -/

/-- **The intermediate routes are exactly the ways to take the degrees apart.**  A pair has some at
its degree and at no other; they are the routes in between, of which there is at least one, and the
pair is split at each of them once, in the order of the indexes. -/
theorem decompositions_of_build (hn : n.IsMade)
    (ht : Degrees.build n n.sharedDates interchanges = .ok t) :
    (∀ d, 2 ≤ d → d ≤ maxDegree →
      (build n.sharedDates t).countAt d = (t.level d).count ∧
      ∀ pair, ((∃ vias, (build n.sharedDates t).behind n ⟨d, pair⟩ = .ok vias) ↔
          t.degreeOf pair = some d) ∧
        ∀ vias, (build n.sharedDates t).behind n ⟨d, pair⟩ = .ok vias →
          vias.isEmpty = false ∧ (∀ via, vias.get via = true ↔ t.IsBetween d pair via) ∧
          ∃ first second between splits, n.routes[pair.first]? = some first ∧
            n.routes[pair.second]? = some second ∧ between.Pairwise (· < ·) ∧
            (∀ via, via ∈ between ↔ t.IsBetween d pair via) ∧
            (build n.sharedDates t).splits n ⟨d, pair⟩ = .ok splits ∧
            List.Forall₂ (SplitsAt n first second) between splits) ∧
    (build n.sharedDates t).countAt 1 = 0 := by
  have hapart := hn.apart
  refine ⟨fun d hpos hle => ⟨countAt_build hapart ht hpos hle, fun pair =>
    ⟨exists_behind_iff hapart ht hpos hle, fun vias hbehind => ?_⟩⟩,
    countAt_build_eq_zero _ t (by omega)⟩
  obtain ⟨hsome, hget⟩ := isBetween_of_behind hapart ht hpos hle hbehind
  have hindexed {e : Nat} {p : RoutePair} (he : 1 ≤ e) (hemax : e ≤ maxDegree)
      (hdegree : t.degreeOf p = some e) : p.first < n.size ∧ p.second < n.size := by
    have hat := (Degrees.degreeOf_eq_some_iff_isAt hapart ht he hemax).mp hdegree
    rw [← Degrees.numbering_of_build ht]
    exact (Degrees.squares_of_build ht).lt_of_isAt hat
  obtain ⟨hfirst, hsecond⟩ := hindexed (by omega) hle
    ((exists_behind_iff hapart ht hpos hle).mp ⟨vias, hbehind⟩)
  have hvias (via : Nat) (hvia : vias.get via = true) : via < n.size :=
    (hindexed (Nat.le_refl 1) (by decide) ((hget via).mp hvia).2).1
  obtain ⟨splits, hsplits, hforall⟩ := exists_splits (Array.getElem?_eq_getElem hfirst)
    (Array.getElem?_eq_getElem hsecond) hbehind hvias
  refine ⟨hsome, hget, _, _, vias.toList, splits, Array.getElem?_eq_getElem hfirst,
    Array.getElem?_eq_getElem hsecond, vias.pairwise_toList, fun via => ?_, hsplits, hforall⟩
  rw [Bitmap.mem_toList, hget]

end Vias

/-! ## The sample city -/

namespace SampleCity

/-- The numbering of the routes of the city. -/
def cityNumbering : Numbering :=
  .ofSorted routes

theorem build_city : Numbering.build network.source = .ok cityNumbering := by
  have hroutes : network.source.routes = routes := rfl
  rw [Numbering.build_of_le (by rw [hroutes]; decide), hroutes,
    List.mergeSort_of_pairwise (by decide)]
  rfl

theorem directChanges_city : cityNumbering.directChanges network.interchanges =
    .ok [(2, 0), (0, 2), (0, 1), (0, 3), (1, 0), (1, 3), (3, 0), (3, 1), (1, 3), (3, 1)] :=
  rfl

/-- The pink line is two changes from the green line and from the bus, in both directions, and the
blue line is what takes the way to the green line apart. -/
theorem taken_apart : cityNumbering.IsMade ∧
    ∃ t, Degrees.build cityNumbering cityNumbering.sharedDates network.interchanges = .ok t ∧
      (Vias.build cityNumbering.sharedDates t).countAt 2 = 4 ∧
      ∃ vias, (Vias.build cityNumbering.sharedDates t).behind cityNumbering ⟨2, 2, 1⟩ = .ok vias ∧
        vias.get 0 = true ∧ vias.get 3 = false := by
  have hmade : cityNumbering.IsMade := .inl ⟨network.source, build_city⟩
  have ht := Degrees.build_of_directChanges cityNumbering.sharedDates directChanges_city
  obtain ⟨hdegrees, -⟩ := Vias.decompositions_of_build hmade ht
  obtain ⟨hcount, hpairs⟩ := hdegrees 2 (by decide) (by decide)
  obtain ⟨hbehind, hvias⟩ := hpairs ⟨2, 1⟩
  obtain ⟨vias, hok⟩ := hbehind.mpr (by decide +kernel)
  obtain ⟨-, hget, -⟩ := hvias vias hok
  refine ⟨hmade, _, ht, ?_, vias, hok, ?_, ?_⟩
  · rw [hcount]
    decide +kernel
  · exact (hget 0).mpr ⟨by decide +kernel, by decide +kernel⟩
  · rw [← Bool.not_eq_true, hget 3]
    -- the bus calls where the green line does, but is itself two changes from the pink line
    rintro ⟨hnear, -⟩
    revert hnear
    decide +kernel

end SampleCity
end TransitChanges
