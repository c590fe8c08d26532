import TransitChanges.Proofs.NameOrder
import TransitChanges.Proofs.RecordedCalls
import TransitChanges.Proofs.SameVersion
import TransitChanges.Proofs.Sorting
import TransitChanges.Proofs.Vias

/-!
# The routes found at a set of stations

The routes that call at some stations in the scope of a query are put together in several steps: the
calls of each station are filtered and their routes sorted, repeats of a name are dropped, and the
routes of all stations are put in a map.  None of the steps loses a name, and each leaves the routes
in the order of their names.

A call is recorded with the route that its name stands for at the time (`Edit.Records`), and it is
this route whose mode and dates count, also if another was added under its name since.

* `ascending_sortedOnce`, `find?_sortedOnce`: sorting and dropping repeats.
* `find?_routesAtAny`: of routes of one name, which one is found.
* `findsRoutes_service`: the routes that pick up and that set down at a set of stations.
-/

namespace TransitChanges

/-! ## The order of names -/

theorem Name.compare_eq_lt_iff {kind : NameKind} {a b : Name kind} :
    compare a b = .lt ↔ a.bytes < b.bytes := by
  have hswap : compare b a = (compare a b).swap := Std.OrientedCmp.eq_swap
  rw [← List.not_le, ← Name.le_iff_bytes_le, Name.le, hswap]
  cases compare a b <;> decide

/-! ## Routes in the order of their names -/

namespace Route

variable {routes : List Route} {r : Route} {id : RouteId}

/-- Routes in the order of their names, with no name repeated. -/
def Ascending (routes : List Route) : Prop :=
  routes.Pairwise fun r s => compare r.id s.id = .lt

/-- Routes in the order of their names are found under their names. -/
theorem Ascending.find?_eq_some_iff (h : Ascending routes) :
    routes.find? (fun s => s.id = id) = some r ↔ r ∈ routes ∧ r.id = id := by
  induction routes with
  | nil => simp
  | cons s routes ih =>
    obtain ⟨hfirst, hrest⟩ := List.pairwise_cons.mp h
    by_cases hs : s.id = id
    · simp only [List.find?_cons, hs, decide_true, Option.some.injEq, List.mem_cons]
      constructor
      · rintro rfl
        exact ⟨.inl rfl, hs⟩
      · rintro ⟨rfl | hmem, hid⟩
        · rfl
        · have hlt := hfirst r hmem
          rw [hs, hid, Name.compare_eq_iff.mpr rfl] at hlt
          cases hlt
    · simp only [List.find?_cons, hs, decide_false, ih hrest, List.mem_cons]
      constructor
      · exact fun ⟨hmem, hid⟩ => ⟨.inr hmem, hid⟩
      · rintro ⟨rfl | hmem, hid⟩
        · exact absurd hid hs
        · exact ⟨hmem, hid⟩

theorem pairwise_cons_dropRepeatsOf
    (h : (r :: routes).Pairwise fun r s => r.id.le s.id = true) :
    Ascending (r :: dropRepeatsOf r.id routes) := by
  induction routes generalizing r with
  | nil => exact List.pairwise_singleton _ _
  | cons s routes ih =>
    obtain ⟨hfirst, hrest⟩ := List.pairwise_cons.mp h
    rw [dropRepeatsOf]
    by_cases heq : s.id = r.id
    · rw [if_pos heq]
      exact ih (h.sublist (List.sublist_cons_self s routes |>.cons_cons r))
    · rw [if_neg heq]
      have hs := ih hrest
      have hlt : compare r.id s.id = .lt := by
        have hle := hfirst s List.mem_cons_self
        have hne : compare r.id s.id ≠ .eq := fun h => heq (Name.compare_eq_iff.mp h).symm
        rw [Name.le] at hle
        cases hcompare : compare r.id s.id with
        | lt => rfl
        | eq => exact absurd hcompare hne
        | gt => rw [hcompare] at hle; cases hle
      refine List.pairwise_cons.mpr ⟨fun t ht => ?_, hs⟩
      rcases List.mem_cons.mp ht with rfl | ht
      · exact hlt
      · exact Std.TransCmp.lt_trans hlt ((List.pairwise_cons.mp hs).1 t ht)

theorem ascending_sortedOnce (routes : List Route) : Ascending (sortedOnce routes) := by
  have hsorted : (routes.mergeSort fun r s => r.id.le s.id).Pairwise
      fun r s => r.id.le s.id = true :=
    pairwise_mergeSort_of_order (compareOn Route.id) (fun _ _ => rfl) routes
  rw [sortedOnce]
  cases hlist : routes.mergeSort fun r s => r.id.le s.id with
  | nil => exact List.Pairwise.nil
  | cons r rest =>
    rw [hlist] at hsorted
    exact pairwise_cons_dropRepeatsOf hsorted

theorem find?_dropRepeatsOf {name : RouteId} (h : name ≠ id) :
    (dropRepeatsOf name routes).find? (fun s => s.id = id) = routes.find? fun s => s.id = id := by
  induction routes generalizing name with
  | nil => rfl
  | cons s routes ih =>
    rw [dropRepeatsOf]
    by_cases heq : s.id = name
    · rw [if_pos heq, ih h, List.find?_cons_of_neg (by simpa [heq] using h)]
    · rw [if_neg heq]
      by_cases hs : s.id = id
      · simp only [List.find?_cons, hs, decide_true]
      · simp only [List.find?_cons, hs, decide_false, ih hs]

/-- Of routes with one name, the first in the list is kept. -/
theorem find?_sortedOnce (routes : List Route) (id : RouteId) :
    (sortedOnce routes).find? (fun r => r.id = id) = routes.find? fun r => r.id = id := by
  have hstable : (routes.mergeSort fun r s => r.id.le s.id).find? (fun r => r.id = id) =
      routes.find? fun r => r.id = id := by
    have hrank : ∀ r s : Route, decide (r.id = id) = true → decide (s.id = id) = true →
        r.id.le s.id = true := by
      intro r s hr hs
      rw [of_decide_eq_true hr, of_decide_eq_true hs, Name.le, Name.compare_eq_iff.mpr rfl]
      rfl
    have hfilter : (routes.mergeSort fun r s => r.id.le s.id).filter (fun r => r.id = id) =
        routes.filter fun r => r.id = id :=
      filter_mergeSort_of_order (compareOn Route.id) (fun _ _ => rfl) hrank routes
    rw [← List.head?_filter, ← List.head?_filter, hfilter]
  rw [← hstable, sortedOnce]
  cases routes.mergeSort fun r s => r.id.le s.id with
  | nil => rfl
  | cons r rest =>
    rw [dropRepeats]
    by_cases hr : r.id = id
    · simp only [List.find?_cons, hr, decide_true]
    · simp only [List.find?_cons, hr, decide_false, find?_dropRepeatsOf hr]

theorem getElem?_byName (routes : List Route) (id : RouteId) :
    (byName routes)[id]? = routes.findRev? fun r => r.id = id := by
  have hlast := getElem?_foldl_insert Route.id (fun r => r) routes ∅ id
  rw [Std.TreeMap.getElem?_emptyc, Option.or_none, Option.map_id_fun'] at hlast
  exact hlast

theorem id_of_getElem?_byName (h : (byName routes)[id]? = some r) : r.id = id := by
  rw [getElem?_byName] at h
  exact of_decide_eq_true (of_findRev?_eq_some h).2

/-- Routes that a map holds under their names are in the order of their names. -/
theorem ascending_values {map : Std.TreeMap RouteId Route}
    (h : ∀ {id : RouteId} {r : Route}, map[id]? = some r → r.id = id) : Ascending map.values := by
  rw [Ascending, values_eq_map_toList, List.pairwise_map]
  refine Std.TreeMap.ordered_keys_toList.imp_of_mem fun {a b} ha hb hlt => ?_
  rw [h (Std.TreeMap.mem_toList_iff_getElem?_eq_some.mp ha),
    h (Std.TreeMap.mem_toList_iff_getElem?_eq_some.mp hb)]
  exact hlt

theorem ascending_byName (routes : List Route) : Ascending (byName routes).values :=
  ascending_values id_of_getElem?_byName

/-- Of routes with one name, the last in the list is kept. -/
theorem find?_values_byName (routes : List Route) (id : RouteId) :
    (byName routes).values.find? (fun r => r.id = id) = routes.findRev? fun r => r.id = id := by
  rw [← getElem?_byName]
  refine Option.ext fun r => ?_
  rw [(ascending_byName routes).find?_eq_some_iff, mem_values_iff]
  constructor
  · rintro ⟨⟨key, hkey⟩, rfl⟩
    rw [id_of_getElem?_byName hkey]
    exact hkey
  · exact fun h => ⟨⟨id, h⟩, id_of_getElem?_byName h⟩

/-- Routes in the order of their names are listed by name again. -/
theorem values_byName_of_ascending (h : Ascending routes) : (byName routes).values = routes := by
  have hmap : byName routes = Std.TreeMap.ofList (routes.map fun r => (r.id, r)) := by
    rw [ofList_eq_foldl_insert, List.foldl_map]
    rfl
  have hkeys : (routes.map fun r => (r.id, r)).Pairwise fun a b => compare a.1 b.1 = .lt :=
    List.pairwise_map.mpr h
  rw [values_eq_map_toList, hmap, toList_ofList hkeys, List.map_map]
  exact List.map_id routes

/-- Of routes in the order of their names, the first of a name is also the last. -/
theorem findRev?_of_ascending (h : Ascending routes) (id : RouteId) :
    (routes.findRev? fun r => r.id = id) = routes.find? fun r => r.id = id := by
  rw [← find?_values_byName, values_byName_of_ascending h]

end Route

/-! ## The routes of a set of stations -/

/-- A call counts for a query: it is of a wanted kind, in the window, in a mode that may be used, and
of a route that runs on the date. -/
structure Call.Counts (c : Call) (wanted : Calling → Bool) (scope : Scope) : Prop where
  wanted : wanted c.calling = true
  overlaps : c.window.overlaps scope.window = true
  permitted : scope.modes.contains c.route.mode = true
  runs : c.route.runsOn scope.date = true

theorem Call.counts_iff {c : Call} {wanted : Calling → Bool} {scope : Scope} :
    c.Counts wanted scope ↔ wanted c.calling = true ∧ c.isMade scope = true := by
  rw [isMade, Bool.and_eq_true, Bool.and_eq_true]
  constructor
  · exact fun h => ⟨h.wanted, ⟨h.overlaps, h.permitted⟩, h.runs⟩
  · exact fun ⟨hwanted, ⟨hoverlaps, hpermitted⟩, hruns⟩ => ⟨hwanted, hoverlaps, hpermitted, hruns⟩

/-- A set of one station lists that station. -/
theorem StationSet.toList_eq_singleton {stations : StationSet} {station : StationId}
    (h : ∀ s, s ∈ stations ↔ s = station) : stations.toList = [station] := by
  have hmem (s : StationId) : s ∈ stations.toList ↔ s = station := by
    rw [Std.TreeSet.mem_toList, h]
  have hordered : stations.toList.Pairwise fun a b => compare a b = .lt :=
    Std.TreeSet.ordered_toList
  cases hlist : stations.toList with
  | nil =>
    have hstation := (hmem station).mpr rfl
    rw [hlist] at hstation
    cases hstation
  | cons a rest =>
    rw [hlist] at hmem hordered
    have ha : a = station := (hmem a).mp List.mem_cons_self
    cases rest with
    | nil => rw [ha]
    | cons b rest =>
      have hb : b = station := (hmem b).mp (List.mem_cons_of_mem _ List.mem_cons_self)
      have hlt := (List.pairwise_cons.mp hordered).1 b List.mem_cons_self
      rw [ha, hb, Name.compare_eq_iff.mpr rfl] at hlt
      cases hlt

namespace Network

variable (net : Network) (wanted : Calling → Bool) (scope : Scope)

/-- The call that was first recorded at a station of those that count for a query and are of a route
of a name. -/
def firstCounting? (id : RouteId) (station : StationId) : Option Call :=
  (net.callsAt station).find? fun c => wanted c.calling && c.isMade scope && c.route.id = id

theorem ascending_routesAt (station : StationId) :
    Route.Ascending (net.routesAt wanted station scope) :=
  Route.ascending_sortedOnce _

theorem find?_routesAt (station : StationId) (id : RouteId) :
    (net.routesAt wanted station scope).find? (fun r => r.id = id) =
      (net.firstCounting? wanted scope id station).map Call.route := by
  rw [routesAt, Route.find?_sortedOnce, List.find?_map, List.find?_filter, firstCounting?]
  simp only [Function.comp_apply, Bool.decide_and, Bool.decide_eq_true]

/-- **Of routes of one name** the one is found that was first recorded at the last of the stations
where one counts. -/
theorem find?_routesAtAny (stations : StationSet) (id : RouteId) :
    (net.routesAtAny wanted stations scope).find? (fun r => r.id = id) =
      stations.toList.reverse.findSome? fun station =>
        (net.firstCounting? wanted scope id station).map Call.route := by
  have hlast (station : StationId) :
      (net.routesAt wanted station scope).reverse.find? (fun r => r.id = id) =
        (net.firstCounting? wanted scope id station).map Call.route := by
    rw [← List.findRev?_eq_find?_reverse,
      Route.findRev?_of_ascending (net.ascending_routesAt wanted scope station), find?_routesAt]
  rw [routesAtAny, Route.find?_values_byName, List.findRev?_eq_find?_reverse,
    List.reverse_flatMap, List.find?_flatMap]
  simp only [Function.comp_apply, hlast]

/-- The names of the routes that are found are those of the calls that count. -/
theorem mem_ids_routesAtAny_iff {stations : StationSet} {id : RouteId} :
    id ∈ (net.routesAtAny wanted stations scope).map Route.id ↔
      ∃ c ∈ net.calls, c.station ∈ stations ∧ c.Counts wanted scope ∧ c.route.id = id := by
  rw [List.mem_map]
  constructor
  · rintro ⟨r, hr, rfl⟩
    obtain ⟨c, hc, hstation, hwanted, hmade, rfl⟩ := exists_call_of_mem_routesAtAny hr
    exact ⟨c, hc, Std.TreeSet.mem_toList.mp hstation, Call.counts_iff.mpr ⟨hwanted, hmade⟩, rfl⟩
  · rintro ⟨c, hc, hstation, hcounts, rfl⟩
    obtain ⟨hwanted, hmade⟩ := Call.counts_iff.mp hcounts
    obtain ⟨s, hs, hid⟩ := exists_mem_routesAt wanted hc hwanted hmade
    have hfound : s ∈ stations.toList.flatMap fun station => net.routesAt wanted station scope :=
      List.mem_flatMap.mpr ⟨c.station, Std.TreeSet.mem_toList.mpr hstation, hs⟩
    obtain ⟨t, ht, hid'⟩ := Route.exists_mem_byName hfound
    exact ⟨t, ht, hid'.trans hid⟩

/-- A set of one station is asked like the station. -/
theorem routesAtAny_of_singleton {stations : StationSet} {station : StationId}
    (h : ∀ s, s ∈ stations ↔ s = station) :
    net.routesAtAny wanted stations scope = net.routesAt wanted station scope := by
  rw [routesAtAny, StationSet.toList_eq_singleton h, List.flatMap_singleton]
  exact Route.values_byName_of_ascending (net.ascending_routesAt wanted scope station)

/-- Questions about a station and about sets of stations are answered by the routes of the wanted
calls that edits record. -/
structure FindsRoutes (edits : List Edit) (wanted : Calling → Bool)
    (single : StationId → Scope → List Route) (found : StationSet → Scope → List Route) : Prop where
  /-- The routes are in the order of their names, and no name is repeated. -/
  ascending (stations : StationSet) (scope : Scope) :
    (found stations scope).Pairwise fun r s => r.id.bytes < s.id.bytes
  /-- The names are those of the calls that count. -/
  mem_ids_iff (stations : StationSet) (scope : Scope) (id : RouteId) :
    id ∈ (found stations scope).map Route.id ↔
      ∃ c, Edit.Records edits c ∧ c.station ∈ stations ∧ c.Counts wanted scope ∧ c.route.id = id
  /-- A route is that of the first call of its name at the last station where one counts. -/
  find?_eq (stations : StationSet) (scope : Scope) (id : RouteId) :
    (found stations scope).find? (fun r => r.id = id) =
      stations.toList.reverse.findSome? fun station =>
        ((ofEdits edits).firstCounting? wanted scope id station).map Call.route
  /-- Each route is that of a call that counts. -/
  exists_call (stations : StationSet) (scope : Scope) (r : Route) : r ∈ found stations scope →
    ∃ c, Edit.Records edits c ∧ c.station ∈ stations ∧ c.Counts wanted scope ∧ c.route = r
  /-- A set of one station is asked like the station. -/
  eq_single (stations : StationSet) (station : StationId) (scope : Scope) :
    (∀ s, s ∈ stations ↔ s = station) → found stations scope = single station scope
  /-- At the stations of two sets the names are those of either set. -/
  mem_ids_union_iff (first second union : StationSet) (scope : Scope) (id : RouteId) :
    (∀ s, s ∈ union ↔ s ∈ first ∨ s ∈ second) →
      (id ∈ (found union scope).map Route.id ↔
        id ∈ (found first scope).map Route.id ∨ id ∈ (found second scope).map Route.id)

theorem findsRoutes_routesAtAny (edits : List Edit) (wanted : Calling → Bool) :
    FindsRoutes edits wanted ((ofEdits edits).routesAt wanted)
      ((ofEdits edits).routesAtAny wanted) where
  ascending stations scope :=
    (Route.ascending_byName _).imp Name.compare_eq_lt_iff.mp
  mem_ids_iff stations scope id := by
    rw [mem_ids_routesAtAny_iff]
    simp only [mem_calls_ofEdits_iff]
  find?_eq stations scope id := find?_routesAtAny _ wanted scope stations id
  exists_call stations scope r hr := by
    obtain ⟨c, hc, hstation, hwanted, hmade, hroute⟩ := exists_call_of_mem_routesAtAny hr
    exact ⟨c, mem_calls_ofEdits_iff.mp hc, Std.TreeSet.mem_toList.mp hstation,
      Call.counts_iff.mpr ⟨hwanted, hmade⟩, hroute⟩
  eq_single stations station scope h := routesAtAny_of_singleton _ wanted scope h
  mem_ids_union_iff first second union scope id h := by
    rw [mem_ids_routesAtAny_iff, mem_ids_routesAtAny_iff, mem_ids_routesAtAny_iff]
    constructor
    · rintro ⟨c, hc, hstation, hcounts⟩
      rcases (h c.station).mp hstation with hfirst | hsecond
      · exact .inl ⟨c, hc, hfirst, hcounts⟩
      · exact .inr ⟨c, hc, hsecond, hcounts⟩
    · rintro (⟨c, hc, hfirst, hcounts⟩ | ⟨c, hc, hsecond, hcounts⟩)
      · exact ⟨c, hc, (h c.station).mpr (.inl hfirst), hcounts⟩
      · exact ⟨c, hc, (h c.station).mpr (.inr hsecond), hcounts⟩

/-- **The routes that pick up and the routes that set down at a set of stations**, however the
network was put together. -/
theorem findsRoutes_service (edits : List Edit) :
    FindsRoutes edits Calling.picksUp (ofEdits edits).service.pickups
        (ofEdits edits).service.pickupsAt ∧
      FindsRoutes edits Calling.setsDown (ofEdits edits).service.dropoffs
        (ofEdits edits).service.dropoffsAt :=
  ⟨findsRoutes_routesAtAny edits Calling.picksUp, findsRoutes_routesAtAny edits Calling.setsDown⟩

end Network

/-! ## A route that is added again between its calls -/

namespace Renewed

open SampleCity

/-- A line that stops at `S`, and then is added again with more dates and stops at `T`. -/
def edits : List Edit := [
  .route (AddedAgain.line "A" (.single newYear)),
  .stop "S" "A",
  .route (AddedAgain.line "A" year),
  .stop "T" "A"]

/-- On a later date the line is found at `T` and not at `S`, though the network then holds the line
with all dates. -/
theorem found_at_second :
    (named "A" : RouteId) ∉ ((Network.ofEdits edits).service.pickupsAt
        (.ofList [named "S"]) scope).map Route.id ∧
      (named "A" : RouteId) ∈ ((Network.ofEdits edits).service.pickupsAt
        (.ofList [named "S", named "T"]) scope).map Route.id ∧
      (Network.ofEdits edits).service.dropoffsAt (.ofList [named "T"]) scope =
        (Network.ofEdits edits).service.dropoffs (named "T") scope := by
  obtain ⟨hpickups, hdropoffs⟩ := Network.findsRoutes_service edits
  have hcalls : (Network.ofEdits edits).calls = [
      ⟨named "S", AddedAgain.line "A" (.single newYear), .both, .allDay⟩,
      ⟨named "T", AddedAgain.line "A" year, .both, .allDay⟩] := rfl
  refine ⟨?_, ?_, hdropoffs.eq_single _ _ _ fun s => ?_⟩
  · rw [hpickups.mem_ids_iff]
    rintro ⟨c, hc, hstation, hcounts, -⟩
    rw [← Network.mem_calls_ofEdits_iff, hcalls, List.mem_cons, List.mem_singleton] at hc
    rw [StationSet.ofList, Std.TreeSet.mem_ofList, List.contains_iff_mem, List.mem_singleton]
      at hstation
    rcases hc with rfl | rfl
    · exact absurd hcounts.runs (by decide)
    · exact absurd hstation (by decide)
  · rw [hpickups.mem_ids_iff]
    refine ⟨⟨named "T", AddedAgain.line "A" year, .both, .allDay⟩, ?_, ?_, ?_, rfl⟩
    · rw [← Network.mem_calls_ofEdits_iff, hcalls]
      exact List.mem_cons_of_mem _ List.mem_cons_self
    · rw [StationSet.ofList, Std.TreeSet.mem_ofList, List.contains_iff_mem]
      exact List.mem_cons_of_mem _ List.mem_cons_self
    · exact Call.counts_iff.mpr (by decide)
  · rw [StationSet.ofList, Std.TreeSet.mem_ofList, List.contains_iff_mem, List.mem_singleton]

end Renewed
end TransitChanges
