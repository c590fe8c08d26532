import TransitChanges.Proofs.Enquiry
import TransitChanges.Proofs.NetworkRoutes
import TransitChanges.SampleCity

/-!
# Tables built together never contradict each other

A query over tables can refuse because the tables contradict each other: a recorded pair has no
station, or no intermediate route, or an index has no route.  No query over tables that were built
together does (`Planner.Consistent`), whatever the timetable answers and whatever was asked before:
every pair has its ways, and with them every search comes to its end.  What is left is that a route
is asked about that has no index.

Over a network the routes of a query have their indexes, so every query about places is answered.

* `consistent_of_isBuilt`: the queries over built tables.
* `answersPlaces_of_isBuilt`: the queries about places over the tables of a network.
-/

namespace TransitChanges

open Bits

/-- The refusal to answer about a route that has no index. -/
def Fault.IsNotIndexed (fault : Fault) : Prop :=
  ∃ route, fault = .routeNotIndexed route

namespace Numbering

variable {n : Numbering}

/-- A route without an index is refused by its name. -/
theorem eq_of_indexOf_eq_error {route : RouteId} {fault : Fault}
    (h : n.indexOf route = .error fault) : fault = .routeNotIndexed route := by
  unfold indexOf at h
  split at h
  · cases h
  · cases h
    rfl

theorem isNotIndexed_of_indexOf {route : RouteId} {fault : Fault}
    (h : n.indexOf route = .error fault) : fault.IsNotIndexed :=
  ⟨route, eq_of_indexOf_eq_error h⟩

/-- Two names have no pair only if one has no index. -/
theorem isNotIndexed_of_pairOf {first second : RouteId} {fault : Fault}
    (h : n.pairOf first second = .error fault) : fault.IsNotIndexed := by
  cases hi : n.indexOf first with
  | error fault' =>
    rw [pairOf, hi] at h
    cases h
    exact isNotIndexed_of_indexOf hi
  | ok i =>
    cases hj : n.indexOf second with
    | error fault' =>
      rw [pairOf, hi, hj] at h
      cases h
      exact isNotIndexed_of_indexOf hj
    | ok j =>
      rw [pairOf_eq_ok hi hj] at h
      cases h

theorem isNotIndexed_of_mapM {routes : List RouteId} {fault : Fault}
    (h : routes.mapM n.indexOf = .error fault) : fault.IsNotIndexed := by
  induction routes with
  | nil => cases h
  | cons route routes ih =>
    rw [List.mapM_cons] at h
    cases hroute : n.indexOf route with
    | error fault' =>
      rw [hroute] at h
      cases h
      exact isNotIndexed_of_indexOf hroute
    | ok index =>
      rw [hroute] at h
      cases hroutes : routes.mapM n.indexOf with
      | error fault' =>
        rw [hroutes] at h
        cases h
        exact ih hroutes
      | ok indexes =>
        rw [hroutes] at h
        cases h

theorem exists_mapM_indexOf {routes : List RouteId}
    (h : ∀ route ∈ routes, ∃ index, n.indexOf route = .ok index) :
    ∃ indexes, routes.mapM n.indexOf = .ok indexes := by
  induction routes with
  | nil => exact ⟨[], rfl⟩
  | cons route routes ih =>
    obtain ⟨index, hindex⟩ := h route List.mem_cons_self
    obtain ⟨indexes, hindexes⟩ := ih fun r hr => h r (List.mem_cons_of_mem _ hr)
    refine ⟨index :: indexes, ?_⟩
    rw [List.mapM_cons, hindex, hindexes]
    rfl

/-- The routes of a list that all have their indexes each have one. -/
theorem exists_indexOf_of_mapM {routes : List RouteId} {indexes : List Nat}
    (h : routes.mapM n.indexOf = .ok indexes) :
    ∀ route ∈ routes, ∃ i, n.indexOf route = .ok i := by
  induction routes generalizing indexes with
  | nil =>
    intro route hroute
    cases hroute
  | cons head routes ih =>
    simp only [List.mapM_cons, Fault.bind_eq_ok_iff] at h
    obtain ⟨i, hi, rest, hrest, -⟩ := h
    intro route hroute
    rcases List.mem_cons.mp hroute with rfl | hroute
    · exact ⟨i, hi⟩
    · exact ih hrest route hroute

end Numbering

namespace Enquiry

variable {e : Enquiry} {interchanges : List Interchange}
  (ht : e.planner.tables.IsBuilt interchanges)

theorem refusesOnly_indexOf (route : RouteId) :
    (e.indexOf route).RefusesOnly Fault.IsNotIndexed :=
  .ofExcept fun _ hfault => Numbering.isNotIndexed_of_indexOf hfault

include ht in
/-- In built tables the changes of a pair are found, whatever the timetable answers. -/
theorem ensures_changesFor_built (i j : Nat) :
    Asking.Ensures (fun _ => True) (e.changesFor ⟨i, j⟩) fun _ => True := by
  obtain ⟨ways, hways, -⟩ := ht.exists_waysFor e.gate e.scope.modes i j
  exact ensures_changesFor_any hways

include ht in
theorem refusesOnly_fewestFrom (start : Nat) (best : Changes) (destinations : List Route) :
    (e.fewestFrom start best destinations).RefusesOnly Fault.IsNotIndexed := by
  induction destinations generalizing best with
  | nil => exact .pure best
  | cons r destinations ih =>
    refine (refusesOnly_indexOf r.id).bind fun index => ?_
    refine (Asking.RefusesOnly.of_ensures (ensures_changesFor_built ht start index)).bind
      fun changes => ?_
    dsimp only
    split
    · exact .pure _
    · exact ih _

include ht in
theorem refusesOnly_fewestBetween (destinations : List Route) (best : Changes)
    (starts : List Route) :
    (e.fewestBetween destinations best starts).RefusesOnly Fault.IsNotIndexed := by
  induction starts generalizing best with
  | nil => exact .pure best
  | cons s starts ih =>
    refine (refusesOnly_indexOf s.id).bind fun index => ?_
    refine (refusesOnly_fewestFrom ht index best destinations).bind fun nearest => ?_
    split
    · exact .pure nearest
    · exact ih nearest

end Enquiry

namespace Ranking

variable {r : Ranking} {interchanges : List Interchange}
  (ht : r.enquiry.planner.tables.IsBuilt interchanges)

include ht in
/-- An indexed route is ranked, whatever was asked before. -/
theorem ensures_fewestChanges {route : RouteId}
    (hroute : ∃ index, r.enquiry.planner.tables.numbering.indexOf route = .ok index) :
    Asking.Ensures (fun _ => True) (r.fewestChanges route) fun _ => True := by
  obtain ⟨index, hindex⟩ := hroute
  have hstart : Asking.Ensures (fun _ => True) (r.enquiry.indexOf route) fun _ => True :=
    .ofExcept hindex trivial
  refine hstart.bind fun start _ => ?_
  split
  · exact .pure trivial
  · exact Enquiry.ensures_fewestTo_any _ fun j _ => Enquiry.ensures_changesFor_built ht start j

include ht in
theorem refusesOnly_fewestChanges (route : RouteId) :
    (r.fewestChanges route).RefusesOnly Fault.IsNotIndexed := by
  refine (Enquiry.refusesOnly_indexOf route).bind fun start => ?_
  split
  · exact .pure _
  · exact .of_ensures
      (Enquiry.ensures_fewestTo_any _ fun j _ => Enquiry.ensures_changesFor_built ht start j)

include ht in
theorem refusesOnly_sort {α : Type} (route : α → RouteId) (items : List α) :
    (r.sort route items).RefusesOnly Fault.IsNotIndexed := by
  have hranked : (r.withChanges route items).RefusesOnly Fault.IsNotIndexed := by
    induction items with
    | nil => exact .pure []
    | cons item items ih =>
      refine (refusesOnly_fewestChanges ht (route item)).bind fun changes => ?_
      exact ih.bind fun rest => .pure _
  exact hranked.bind fun ranked => .pure _

end Ranking

namespace Planner

variable {p : Planner} {interchanges : List Interchange}

/-! ## Built tables -/

/-- No query meets tables that contradict each other. -/
structure Consistent (p : Planner) : Prop where
  /-- Every pair has its ways, through whatever gate and in whatever modes. -/
  ways (gate : BitMatrix) (modes : ModeSet) (pair : RoutePair) :
    ∃ ways, p.tables.waysFor gate modes pair = .ok ways
  /-- Two indexed routes have their changes. -/
  changes {first second : RouteId} (hfirst : ∃ index, p.tables.numbering.indexOf first = .ok index)
    (hsecond : ∃ index, p.tables.numbering.indexOf second = .ok index) (scope : Scope) :
    ∃ changes, p.changesBetweenRoutes first second scope = .ok changes
  /-- Indexed routes can be ranked by. -/
  ranking {routes : List RouteId}
    (h : ∀ route ∈ routes, ∃ index, p.tables.numbering.indexOf route = .ok index) (scope : Scope) :
    ∃ r, p.rankingForRoutes routes scope = .ok r
  /-- An indexed route is ranked, whatever the ranking was asked before. -/
  fewest {routes : List RouteId} {scope : Scope} {r : Ranking}
    (hr : p.rankingForRoutes routes scope = .ok r) {route : RouteId}
    (hroute : ∃ index, p.tables.numbering.indexOf route = .ok index) (m : Memory) :
    ∃ changes m', (r.fewestChanges route).run m = (.ok changes, m')
  /-- A query about two routes refuses only because one has no index. -/
  changes_fault {first second : RouteId} {scope : Scope} {fault : Fault}
    (h : p.changesBetweenRoutes first second scope = .error fault) : fault.IsNotIndexed
  /-- A query about places refuses only because a route has no index. -/
  places_fault {starts destinations : StationSet} {scope : Scope} {fault : Fault}
    (h : p.changesBetween starts destinations scope = .error fault) : fault.IsNotIndexed
  /-- A ranking is refused only because a route has no index. -/
  ranking_fault {routes : List RouteId} {scope : Scope} {fault : Fault}
    (h : p.rankingForRoutes routes scope = .error fault) : fault.IsNotIndexed
  /-- A ranking refuses a route only because it has no index. -/
  fewest_fault {routes : List RouteId} {scope : Scope} {r : Ranking}
    (hr : p.rankingForRoutes routes scope = .ok r) (route : RouteId) :
    (r.fewestChanges route).RefusesOnly Fault.IsNotIndexed
  /-- A ranking refuses to sort only because some route has no index. -/
  sort_fault {α : Type} {routes : List RouteId} {scope : Scope} {r : Ranking}
    (hr : p.rankingForRoutes routes scope = .ok r) (route : α → RouteId) (items : List α) :
    (r.sort route items).RefusesOnly Fault.IsNotIndexed

theorem enquiry_of_rankingForRoutes {routes : List RouteId} {scope : Scope} {r : Ranking}
    (h : p.rankingForRoutes routes scope = .ok r) : r.enquiry = p.enquiry scope := by
  simp only [rankingForRoutes, Fault.bind_eq_ok_iff] at h
  obtain ⟨indexes, -, h⟩ := h
  cases h
  rfl

theorem exists_rankingForRoutes {routes : List RouteId}
    (h : ∀ route ∈ routes, ∃ index, p.tables.numbering.indexOf route = .ok index) (scope : Scope) :
    ∃ r, p.rankingForRoutes routes scope = .ok r := by
  obtain ⟨indexes, hindexes⟩ := Numbering.exists_mapM_indexOf h
  refine ⟨⟨p.enquiry scope, Ranking.ascending indexes⟩, ?_⟩
  rw [rankingForRoutes, hindexes]
  rfl

theorem isNotIndexed_of_rankingForRoutes {routes : List RouteId} {scope : Scope} {fault : Fault}
    (h : p.rankingForRoutes routes scope = .error fault) : fault.IsNotIndexed := by
  unfold rankingForRoutes at h
  cases hindexes : routes.mapM p.tables.numbering.indexOf with
  | ok indexes =>
    rw [hindexes] at h
    cases h
  | error fault' =>
    rw [hindexes] at h
    cases h
    exact Numbering.isNotIndexed_of_mapM hindexes

section Built

variable (ht : p.tables.IsBuilt interchanges)

include ht in
theorem isBuilt_of_rankingForRoutes {routes : List RouteId} {scope : Scope} {r : Ranking}
    (h : p.rankingForRoutes routes scope = .ok r) :
    r.enquiry.planner.tables.IsBuilt interchanges := by
  rw [enquiry_of_rankingForRoutes h]
  exact ht

include ht in
theorem exists_changes_of_pairOf {first second : RouteId} {pair : RoutePair}
    (hpair : p.tables.numbering.pairOf first second = .ok pair) (scope : Scope) :
    ∃ changes, p.changesBetweenRoutes first second scope = .ok changes := by
  obtain ⟨changes, hchanges, -⟩ :=
    (Enquiry.ensures_changesFor_built (e := p.enquiry scope) ht pair.first pair.second).result
      trivial
  unfold changesBetweenRoutes
  rw [hpair]
  dsimp only [bind, Except.bind]
  split
  · exact ⟨_, rfl⟩
  · exact ⟨changes, hchanges⟩

include ht in
theorem exists_changesBetweenRoutes {first second : RouteId}
    (hfirst : ∃ index, p.tables.numbering.indexOf first = .ok index)
    (hsecond : ∃ index, p.tables.numbering.indexOf second = .ok index) (scope : Scope) :
    ∃ changes, p.changesBetweenRoutes first second scope = .ok changes := by
  obtain ⟨i, hi⟩ := hfirst
  obtain ⟨j, hj⟩ := hsecond
  exact exists_changes_of_pairOf ht (Numbering.pairOf_eq_ok hi hj) scope

include ht in
theorem isNotIndexed_of_changesBetweenRoutes {first second : RouteId} {scope : Scope}
    {fault : Fault} (h : p.changesBetweenRoutes first second scope = .error fault) :
    fault.IsNotIndexed := by
  cases hpair : p.tables.numbering.pairOf first second with
  | error fault' =>
    rw [changesBetweenRoutes, hpair] at h
    cases h
    exact Numbering.isNotIndexed_of_pairOf hpair
  | ok pair =>
    obtain ⟨changes, hchanges⟩ := exists_changes_of_pairOf ht hpair scope
    rw [hchanges] at h
    cases h

include ht in
theorem isNotIndexed_of_changesBetween {starts destinations : StationSet} {scope : Scope}
    {fault : Fault} (h : p.changesBetween starts destinations scope = .error fault) :
    fault.IsNotIndexed := by
  unfold changesBetween at h
  split at h
  · cases h
  · dsimp only at h
    split at h
    · cases h
    · cases hfewest : ((p.enquiry scope).fewestBetween (p.service.dropoffsAt destinations scope)
          .unreachable (p.service.pickupsAt starts scope)).result with
      | ok fewest =>
        rw [hfewest] at h
        cases h
      | error fault' =>
        rw [hfewest] at h
        cases h
        exact (Enquiry.refusesOnly_fewestBetween (e := p.enquiry scope) ht _ _ _).result hfewest

include ht in
/-- **Tables that were built together never contradict each other.** -/
theorem consistent_of_isBuilt : p.Consistent where
  ways gate modes pair := by
    obtain ⟨ways, hways, -⟩ := ht.exists_waysFor gate modes pair.first pair.second
    exact ⟨ways, hways⟩
  changes := exists_changesBetweenRoutes ht
  ranking := exists_rankingForRoutes
  fewest {routes scope r} hr {route} hroute m := by
    have henquiry := enquiry_of_rankingForRoutes hr
    have ht' := isBuilt_of_rankingForRoutes ht hr
    have hroute' : ∃ index, r.enquiry.planner.tables.numbering.indexOf route = .ok index := by
      rw [henquiry]
      exact hroute
    obtain ⟨changes, m', hrun, -⟩ := Ranking.ensures_fewestChanges ht' hroute' m trivial
    exact ⟨changes, m', hrun⟩
  changes_fault := isNotIndexed_of_changesBetweenRoutes ht
  places_fault := isNotIndexed_of_changesBetween ht
  ranking_fault := isNotIndexed_of_rankingForRoutes
  fewest_fault hr route :=
    Ranking.refusesOnly_fewestChanges (isBuilt_of_rankingForRoutes ht hr) route
  sort_fault hr route items :=
    Ranking.refusesOnly_sort (isBuilt_of_rankingForRoutes ht hr) route items

end Built

/-! ## The tables of a network -/

/-- Every query about places is answered, and routes can be ranked by every place. -/
structure AnswersPlaces (p : Planner) : Prop where
  changes (starts destinations : StationSet) (scope : Scope) :
    ∃ changes, p.changesBetween starts destinations scope = .ok changes
  ranking (destinations : StationSet) (scope : Scope) :
    ∃ r, p.rankingFor destinations scope = .ok r

section Network

variable {net : Network} (hknown : net.Known)
  (hn : Numbering.build net.source = .ok p.tables.numbering)
  (ht : p.tables.IsBuilt interchanges) (hservice : p.service = net.service)

include hknown hn ht hservice in
theorem exists_changesBetween (starts destinations : StationSet) (scope : Scope) :
    ∃ changes, p.changesBetween starts destinations scope = .ok changes := by
  have hdropoffs : ∀ r ∈ p.service.dropoffsAt destinations scope,
      ∃ j, p.tables.numbering.indexOf r.id = .ok j := by
    rw [hservice, Network.dropoffsAt_service]
    exact fun r hr => Network.exists_indexOf_of_mem_routesAtAny hknown hn hr
  have hpickups : ∀ r ∈ p.service.pickupsAt starts scope,
      ∃ i, p.tables.numbering.indexOf r.id = .ok i := by
    rw [hservice, Network.pickupsAt_service]
    exact fun r hr => Network.exists_indexOf_of_mem_routesAtAny hknown hn hr
  obtain ⟨fewest, hfewest, -⟩ := Enquiry.exists_fewestBetween (e := p.enquiry scope) ht
    (Network.answersAt_of_eq_service hservice scope) (Enquiry.exists_changesNow_of_isBuilt ht)
    hdropoffs hpickups
  unfold changesBetween
  split
  · exact ⟨_, rfl⟩
  · dsimp only
    split
    · exact ⟨_, rfl⟩
    · rw [hfewest]
      exact ⟨_, rfl⟩

include hknown hn ht hservice in
theorem answersPlaces_of_isBuilt : p.AnswersPlaces where
  changes := exists_changesBetween hknown hn ht hservice
  ranking destinations scope := by
    refine exists_rankingForRoutes (fun route hroute => ?_) scope
    obtain ⟨r, hr, rfl⟩ := List.mem_map.mp hroute
    rw [hservice, Network.dropoffsAt_service] at hr
    exact Network.exists_indexOf_of_mem_routesAtAny hknown hn hr

end Network

/-- **Queries are answered.**  Over tables that were built together no query reports that they
contradict each other, whatever the timetable answers.  And the tables of every network of not too
many routes are built, and answer every query about places. -/
theorem consistent_of_build :
    (∀ (source : RouteSource) (interchanges : List Interchange) (tables : Connections),
      Connections.build source interchanges = .ok tables →
        ∀ service, (Planner.mk tables service).Consistent) ∧
    (∀ edits : List Edit, (Network.ofEdits edits).routes.size ≤ maxRoutes →
      ∃ tables, Connections.build (Network.ofEdits edits).source
          (Network.ofEdits edits).interchanges = .ok tables ∧
        (Planner.mk tables (Network.ofEdits edits).service).AnswersPlaces) := by
  refine ⟨fun source interchanges tables h service => ?_, fun edits hsize => ?_⟩
  · obtain ⟨-, ht⟩ := Connections.isBuilt_of_build h
    exact consistent_of_isBuilt ht
  · have hknown := Network.known_ofEdits edits
    obtain ⟨tables, htables⟩ := Network.exists_connections hknown hsize
    obtain ⟨hn, ht⟩ := Connections.isBuilt_of_build htables
    exact ⟨tables, htables, answersPlaces_of_isBuilt hknown hn ht rfl⟩

/-- The tables of the sample city are built, never contradict each other and answer every query about
its places. -/
theorem consistent_sampleCity : ∃ tables, Connections.build SampleCity.network.source
      SampleCity.network.interchanges = .ok tables ∧
    (Planner.mk tables SampleCity.network.service).Consistent ∧
    (Planner.mk tables SampleCity.network.service).AnswersPlaces := by
  have hsize : SampleCity.network.routes.size ≤ maxRoutes := by decide
  obtain ⟨hbuilt, hnetwork⟩ := consistent_of_build
  obtain ⟨tables, htables, hanswers⟩ := hnetwork _ hsize
  exact ⟨tables, htables, hbuilt _ _ _ htables _, hanswers⟩

end Planner
end TransitChanges
