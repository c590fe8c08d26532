import TransitChanges.Proofs.Consistency

/-!
# Queries over tables that may contradict each other

Tables that were not built together may record a pair at several degrees, or a route as connected to
itself, or a connection without a way, or ways without a connection.  As long as they tell of
numbered routes only (`Connections.InRange`), no query over them goes astray.

An expansion goes by the degree of its pair, which it takes apart one change at a time, so it comes
to an end whatever the intermediate routes are.  Every part of a tree has exactly its share of the
changes, or none at all, and sums and maxima of such numbers are again the degree or none
(`Ways.Counts`).  All that a query can miss is an entry (`Fault.IsContradiction`).

* `Connections.InRange.allows_waysFor`: the ways of a pair.
* `Enquiry.allows_changesFor`: the changes of a pair.
* `Planner.bounded_of_inRange`: every query.
-/

namespace TransitChanges

open Bits

/-! ## Numbers of changes -/

/-- A number of changes that is no more than a bound, unless one cannot get there. -/
def Changes.AtMost (bound : Nat) (c : Changes) : Prop :=
  c = .unreachable ∨ ∃ k ≤ bound, c = .exactly k

namespace Changes

variable {bound : Nat} {c c' : Changes}

theorem AtMost.fewer (h : c.AtMost bound) (h' : c'.AtMost bound) :
    (c.fewer c').AtMost bound := by
  unfold Changes.fewer
  split
  · exact h
  · exact h'

theorem AtMost.plus (h : c.AtMost bound) {more most : Nat} (hmore : more ≤ most) :
    (c.plus more).AtMost (bound + most) := by
  rcases h with rfl | ⟨k, hk, rfl⟩
  · exact .inl rfl
  · exact .inr ⟨k + more, by omega, rfl⟩

end Changes

namespace Ways

variable {Station : Type} {k m : Nat} {v w : Ways Station} {ways : List (Ways Station)}

/-- A tree has the given number of changes, unless one cannot get there. -/
def Counts (k : Nat) (w : Ways Station) : Prop :=
  w.depth = .exactly k ∨ w.depth = .unreachable

theorem counts_noWay (k : Nat) : Counts k (noWay : Ways Station) := .inr rfl

theorem counts_ofStations (stations : List Station) : Counts 1 (ofStations stations) := by
  unfold Counts
  rw [depth_ofStations]
  split
  · exact .inr rfl
  · exact .inl rfl

theorem Counts.both (hv : Counts k v) (hw : Counts m w) : Counts (k + m) (both v w) := by
  unfold Counts at *
  rw [depth]
  rcases hv with hv | hv
  · rcases hw with hw | hw
    · rw [hv, hw, Changes.add, Changes.counted]
      exact ite_eq_or_eq _ _ _
    · exact .inr (by rw [hw, Changes.add_unreachable])
  · exact .inr (by rw [hv, Changes.unreachable_add])

theorem Counts.any (h : ∀ w ∈ ways, Counts k w) : Counts k (any ways) := by
  by_cases hne : ways = []
  · rw [hne]
    exact .inr rfl
  · obtain ⟨w, hw, hdepth, -⟩ := exists_depth_any_eq hne
    unfold Counts
    rw [hdepth]
    exact h w hw

/-- Alternatives of one number of changes have that number. -/
theorem counts_ofWays (h : ∀ w ∈ ways, Counts k w) : Counts k (ofWays ways) := by
  unfold ofWays
  split
  · exact counts_noWay k
  · exact .any fun w hw => h w (List.mem_filter.mp hw).1

end Ways

/-! ## Expansions of tables in range -/

/-- The tables contradict each other: a recorded connection has no intermediate route, or no
station. -/
def Fault.IsContradiction (fault : Fault) : Prop :=
  (∃ degree first second, fault = .viasMissing degree first second) ∨
    ∃ dropoff pickup, fault = .stationMissing dropoff pickup

namespace Degrees

variable {t : Degrees} {pair : RoutePair}

theorem isAt_of_degreeOf {d : Nat} (h : t.degreeOf pair = some (d + 1)) :
    t.isAt (d + 1) pair = true := by
  unfold degreeOf at h
  split at h
  · cases h
  · have hat := List.find?_some h
    exact hat

end Degrees

/-- A pair with a route in the numbering has its two routes. -/
theorem Numbering.exists_routesAt {n : Numbering} {i j : Nat} (hi : i < n.size) (hj : j < n.size) :
    ∃ routes, n.routesAt ⟨i, j⟩ = .ok routes := by
  have hroute {k : Nat} (hk : k < n.size) : ∃ r, n.routeAt k = .ok r :=
    ⟨n.routes[k], routeAt_eq_ok_iff.mpr (Array.getElem?_eq_getElem hk)⟩
  obtain ⟨r, hr⟩ := hroute hi
  obtain ⟨s, hs⟩ := hroute hj
  refine ⟨(r, s), ?_⟩
  rw [routesAt, hr, hs]
  rfl

namespace Connections

/-- The tables tell of numbered routes only. -/
structure InRange (t : Connections) : Prop where
  isAt_lt {degree i j : Nat} (h : t.degrees.isAt degree ⟨i, j⟩ = true) :
    i < t.numbering.size ∧ j < t.numbering.size
  via_lt {c : Connection} {vias : Bitmap} (h : t.vias.routes[c]? = some vias) {via : Nat}
    (hvia : via ∈ vias.toList) : via < t.numbering.size

theorem allows_directWays {t : Connections} (modes : ModeSet) {i j : Nat} (hi : i < t.numbering.size)
    (hj : j < t.numbering.size) :
    Fault.Allows Fault.IsContradiction (Ways.Counts 1) (t.directWays modes ⟨i, j⟩) := by
  unfold directWays
  split
  · exact Ways.counts_ofStations _
  · obtain ⟨routes, hroutes⟩ := Numbering.exists_routesAt hi hj
    rw [hroutes]
    exact .inr ⟨_, _, rfl⟩

/-- Intermediate routes give trees of two parts, if they give any. -/
theorem allows_waysBy {cause : Fault → Prop} {k m : Nat}
    {before after : Nat → Except Fault (Ways Interchange)} {vias : List Nat}
    (hbefore : ∀ via ∈ vias, Fault.Allows cause (Ways.Counts k) (before via))
    (hafter : ∀ via ∈ vias, Fault.Allows cause (Ways.Counts m) (after via)) :
    Fault.Allows cause (fun ways => ∀ w ∈ ways, w.Counts (k + m)) (waysBy before after vias) := by
  induction vias with
  | nil =>
    intro w hw
    cases hw
  | cons via vias ih =>
    have hrest := ih (fun v hv => hbefore v (List.mem_cons_of_mem _ hv))
      fun v hv => hafter v (List.mem_cons_of_mem _ hv)
    refine (hbefore via List.mem_cons_self).bind fun first hfirst => ?_
    split
    · exact hrest
    · refine (hafter via List.mem_cons_self).bind fun second hsecond => ?_
      refine hrest.bind fun rest hways => ?_
      intro w hw
      rcases List.mem_cons.mp hw with rfl | hw
      · exact hfirst.both hsecond
      · exact hways w hw

namespace InRange

variable {t : Connections} (h : t.InRange) {i j : Nat}
include h

theorem allows_behind {d : Nat} (hle : d + 2 ≤ maxDegree) (hi : i < t.numbering.size)
    (hj : j < t.numbering.size) : Fault.Allows Fault.IsContradiction
      (fun vias => ∀ via ∈ vias.toList, via < t.numbering.size)
      (t.vias.behind t.numbering ⟨d + 2, i, j⟩) := by
  unfold Vias.behind
  rw [if_pos ⟨Nat.le_add_left 2 d, hle⟩]
  split
  · next vias hvias => exact fun via hvia => h.via_lt hvias hvia
  · obtain ⟨routes, hroutes⟩ := Numbering.exists_routesAt hi hj
    rw [hroutes]
    exact .inl ⟨_, _, _, rfl⟩

/-- **An expansion has the number of changes it was asked for, or none**, whatever the tables say,
and it comes short of an entry at worst. -/
theorem allows_expand (gate : BitMatrix) (modes : ModeSet) {f : Nat} (hle : f + 1 ≤ maxDegree)
    (hi : i < t.numbering.size) (hj : j < t.numbering.size) :
    Fault.Allows Fault.IsContradiction (Ways.Counts (f + 1)) (t.expand gate modes f ⟨i, j⟩) := by
  induction f generalizing j with
  | zero => exact allows_directWays modes hi hj
  | succ f ih =>
    refine (h.allows_behind hle hi hj).bind fun vias hvias => ?_
    have hlt (via : Nat) (hvia : via ∈ vias.toList.filter fun via => gate.get i via) :
        via < t.numbering.size := hvias via (List.mem_filter.mp hvia).1
    refine (allows_waysBy (fun via hvia => ih (by omega) (hlt via hvia))
      fun via hvia => allows_directWays modes (hlt via hvia) hj).bind fun ways hways => ?_
    exact Ways.counts_ofWays hways

/-- **The ways of a pair have its recorded degree, or no number of changes.** -/
theorem allows_waysFor (gate : BitMatrix) (modes : ModeSet) (pair : RoutePair) :
    Fault.Allows Fault.IsContradiction
      (fun w => w.depth = .unreachable ∨
        ∃ d, t.degrees.degreeOf pair = some d ∧ w.depth = .exactly d)
      (t.waysFor gate modes pair) := by
  unfold waysFor
  split
  · next f hdegree =>
    split
    · obtain ⟨hi, hj⟩ := h.isAt_lt (Degrees.isAt_of_degreeOf hdegree)
      refine (h.allows_expand gate modes (Degrees.le_of_degreeOf hdegree) hi hj).mono
        (fun _ hfault => hfault) fun w hw => ?_
      exact hw.symm.imp_right fun hdepth => ⟨f + 1, hdegree, hdepth⟩
    · exact .inl rfl
  · exact .inl rfl

end InRange
end Connections

/-! ## Queries over tables in range -/

/-- What a query over tables in range may refuse for: a name without an index, or tables that
contradict each other. -/
def Fault.IsOfQuery (fault : Fault) : Prop :=
  fault.IsNotIndexed ∨ fault.IsContradiction

namespace Enquiry

variable {e : Enquiry} (h : e.planner.tables.InRange)
include h

/-- **The changes of a pair are its recorded degree, or it is unreachable.** -/
theorem allows_changesFor (pair : RoutePair) : (e.changesFor pair).Allows Fault.IsContradiction
    fun c => c = .unreachable ∨
      ∃ d, e.planner.tables.degrees.degreeOf pair = some d ∧ c = .exactly d := by
  cases hpair : pair.isSame with
  | true =>
    rw [changesFor, if_pos hpair]
    refine .pure (.inr ⟨0, ?_, rfl⟩)
    rw [Degrees.degreeOf, if_pos hpair]
  | false =>
    have hallowed := h.allows_waysFor e.gate e.scope.modes pair
    cases hways : e.planner.tables.waysFor e.gate e.scope.modes pair with
    | error fault =>
      rw [hways] at hallowed
      rw [changesFor, hpair, if_neg Bool.false_ne_true, hways]
      exact fun _ => hallowed
    | ok ways =>
      rw [hways] at hallowed
      refine .of_ensures ((ensures_changesFor_of hpair hways fun i _ =>
        e.planner.service.ensures_operates_any e.scope i).mono ?_)
      rintro _ ⟨b, -, rfl⟩
      cases b with
      | true => exact hallowed
      | false => exact .inl rfl

theorem allows_changesFor_atMost (pair : RoutePair) :
    (e.changesFor pair).Allows Fault.IsOfQuery (Changes.AtMost maxDegree) := by
  refine (allows_changesFor h pair).mono (fun _ hfault => .inr hfault) fun c hc => ?_
  refine hc.imp_right ?_
  rintro ⟨d, hdegree, rfl⟩
  exact ⟨d, Degrees.le_of_degreeOf hdegree, rfl⟩

omit h in
theorem allows_indexOf (route : RouteId) :
    (e.indexOf route).Allows Fault.IsOfQuery fun _ => True := by
  have hindex := Fault.Allows.of_error (x := e.planner.tables.numbering.indexOf route)
    fun _ hfault => Numbering.isNotIndexed_of_indexOf hfault
  exact .ofExcept (hindex.mono (fun _ hfault => .inl hfault) fun _ _ => trivial)

theorem allows_fewestFrom (start : Nat) {best : Changes} (hbest : best.AtMost maxDegree)
    (destinations : List Route) :
    (e.fewestFrom start best destinations).Allows Fault.IsOfQuery (Changes.AtMost maxDegree) := by
  induction destinations generalizing best with
  | nil => exact .pure hbest
  | cons r destinations ih =>
    refine (allows_indexOf r.id).bind fun index _ => ?_
    refine (allows_changesFor_atMost h ⟨start, index⟩).bind fun changes hchanges => ?_
    dsimp only
    split
    · exact .pure (hbest.fewer hchanges)
    · exact ih (hbest.fewer hchanges)

theorem allows_fewestBetween (destinations : List Route) {best : Changes}
    (hbest : best.AtMost maxDegree) (starts : List Route) :
    (e.fewestBetween destinations best starts).Allows Fault.IsOfQuery
      (Changes.AtMost maxDegree) := by
  induction starts generalizing best with
  | nil => exact .pure hbest
  | cons s starts ih =>
    refine (allows_indexOf s.id).bind fun index _ => ?_
    refine (allows_fewestFrom h index hbest destinations).bind fun nearest hnearest => ?_
    split
    · exact .pure hnearest
    · exact ih hnearest

theorem allows_fewestTo (start : Nat) {best : Changes} (hbest : best.AtMost maxDegree)
    (destinations : List Nat) :
    (e.fewestTo start best destinations).Allows Fault.IsOfQuery (Changes.AtMost maxDegree) := by
  induction destinations generalizing best with
  | nil => exact .pure hbest
  | cons j destinations ih =>
    refine (allows_changesFor_atMost h ⟨start, j⟩).bind fun changes hchanges => ?_
    exact ih (hbest.fewer hchanges)

end Enquiry

/-- A ranking answers about every route with no more changes than are computed, and sorts whatever
it is given, unless it meets a name without an index or tables that contradict each other. -/
structure Ranking.Bounded (r : Ranking) : Prop where
  fewest (route : RouteId) :
    (r.fewestChanges route).Allows Fault.IsOfQuery (Changes.AtMost maxDegree)
  sort {α : Type} (route : α → RouteId) (items : List α) :
    (r.sort route items).Allows Fault.IsOfQuery fun sorted => sorted.Perm items

theorem Ranking.bounded_of_inRange {r : Ranking} (h : r.enquiry.planner.tables.InRange) :
    r.Bounded := by
  have hfewest (route : RouteId) :
      (r.fewestChanges route).Allows Fault.IsOfQuery (Changes.AtMost maxDegree) := by
    refine (Enquiry.allows_indexOf route).bind fun start _ => ?_
    split
    · exact .pure (.inr ⟨0, Nat.zero_le _, rfl⟩)
    · exact Enquiry.allows_fewestTo h start (.inl rfl) _
  refine ⟨hfewest, fun {α} route items => ?_⟩
  have hranked : (r.withChanges route items).Allows Fault.IsOfQuery
      fun ranked => ranked.map Prod.snd = items := by
    induction items with
    | nil => exact .pure rfl
    | cons item items ih =>
      refine (hfewest (route item)).bind fun changes _ => ?_
      refine ih.bind fun rest hrest => .pure ?_
      rw [List.map_cons, hrest]
  refine hranked.bind fun ranked hmap => .pure ?_
  rw [← hmap]
  exact (List.mergeSort_perm _ _).map Prod.snd

/-- No query leaves its range.  A query refuses only for a name without an index or because the
tables contradict each other. -/
structure Planner.Bounded (p : Planner) : Prop where
  /-- The ways of a pair have its recorded degree. -/
  ways (gate : BitMatrix) (modes : ModeSet) (pair : RoutePair) :
    Fault.Allows Fault.IsContradiction
      (fun w => w.depth = .unreachable ∨
        ∃ d, p.tables.degrees.degreeOf pair = some d ∧ w.depth = .exactly d)
      (p.tables.waysFor gate modes pair)
  /-- Two routes are their recorded degree apart, or unreachable. -/
  routes (first second : RouteId) (scope : Scope) : Fault.Allows Fault.IsOfQuery
    (fun c => c = .unreachable ∨
      ∃ d, p.tables.degrees.degreeBetween first second = .ok (some d) ∧ c = .exactly d)
    (p.changesBetweenRoutes first second scope)
  /-- Two places are at most the largest degree apart, and two changes more for closed ends. -/
  places (starts destinations : StationSet) (scope : Scope) : Fault.Allows Fault.IsOfQuery
    (Changes.AtMost (maxDegree + 2)) (p.changesBetween starts destinations scope)
  rankingForRoutes (routes : List RouteId) (scope : Scope) :
    Fault.Allows Fault.IsNotIndexed Ranking.Bounded (p.rankingForRoutes routes scope)
  rankingFor (destinations : StationSet) (scope : Scope) :
    Fault.Allows Fault.IsNotIndexed Ranking.Bounded (p.rankingFor destinations scope)

namespace Planner

variable {p : Planner} (h : p.tables.InRange)
include h

theorem allows_changesBetweenRoutes (first second : RouteId) (scope : Scope) :
    Fault.Allows Fault.IsOfQuery
      (fun c => c = .unreachable ∨
        ∃ d, p.tables.degrees.degreeBetween first second = .ok (some d) ∧ c = .exactly d)
      (p.changesBetweenRoutes first second scope) := by
  have hpair := Fault.Allows.of_error (x := p.tables.numbering.pairOf first second)
    fun _ hfault => Numbering.isNotIndexed_of_pairOf hfault
  refine (hpair.mono (fun _ hfault => .inl hfault) fun _ hok => hok).bind fun pair hok => ?_
  have hbetween : p.tables.degrees.degreeBetween first second =
      .ok (p.tables.degrees.degreeOf pair) := by
    rw [Degrees.degreeBetween, ← Connections.numbering, hok]
    rfl
  rw [hbetween]
  split
  · next hsame =>
    refine .inr ⟨0, ?_, rfl⟩
    rw [Degrees.degreeOf, if_pos hsame]
  · refine ((Enquiry.allows_changesFor (e := p.enquiry scope) h pair).result).mono
      (fun _ hfault => .inr hfault) fun c hc => hc.imp_right ?_
    rintro ⟨d, hdegree, rfl⟩
    exact ⟨d, congrArg Except.ok hdegree, rfl⟩

theorem allows_changesBetween (starts destinations : StationSet) (scope : Scope) :
    Fault.Allows Fault.IsOfQuery (Changes.AtMost (maxDegree + 2))
      (p.changesBetween starts destinations scope) := by
  unfold changesBetween
  split
  · exact .inr ⟨0, Nat.zero_le _, rfl⟩
  · dsimp only
    split
    · exact .inl rfl
    · refine (Enquiry.allows_fewestBetween (e := p.enquiry scope) h _ (.inl rfl) _).result.bind
        fun fewest hfewest => ?_
      -- each end that is closed adds one change
      exact hfewest.plus (Nat.add_le_add (Bool.toNat_le _) (Bool.toNat_le _))

theorem allows_rankingForRoutes (routes : List RouteId) (scope : Scope) :
    Fault.Allows Fault.IsNotIndexed Ranking.Bounded (p.rankingForRoutes routes scope) := by
  have hindexes := Fault.Allows.of_error (x := routes.mapM p.tables.numbering.indexOf)
    fun _ hfault => Numbering.isNotIndexed_of_mapM hfault
  exact hindexes.bind fun indexes _ => Ranking.bounded_of_inRange h

/-- **No query over tables in range leaves its range.** -/
theorem bounded_of_inRange : p.Bounded where
  ways := h.allows_waysFor
  routes := allows_changesBetweenRoutes h
  places := allows_changesBetween h
  rankingForRoutes := allows_rankingForRoutes h
  rankingFor _ scope := allows_rankingForRoutes h _ scope

end Planner

end TransitChanges
