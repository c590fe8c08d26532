import TransitChanges.Proofs.FewestOfPairs
import TransitChanges.Proofs.FoundRoutes
import TransitChanges.Proofs.RecordedCalls

/-!
# What a network holds

A network is the outcome of its edits, and each of the things it holds can be read off them.  Its
routes are those that were added last under their names; its calls are recorded in the order of the
edits, each with the route that its name stood for at the time (`Edit.recorded`); an interchange is a
station where two calls of different routes are recorded; and one can walk between two stations
either way.

An edit that names an empty text, or calls a route that no edit before it has added, is passed over
(`Edit.IsPassedOver`): the network is the one that is put together without it.

* `apply_of_isPassedOver`: an edit that adds nothing.
* `exists_interchange_iff`, `pairwise_interchanges`: where the interchanges are.
* `areNeighbours_ofEdits_iff`: between which stations one can walk.
* `reflects_ofEdits`: a network reflects its edits.
-/

namespace TransitChanges

/-! ## The edits that add nothing -/

namespace Edit

/-- The edit names an empty text, or a route that was not added before. -/
def IsPassedOver (before : List Edit) : Edit → Prop
  | .route _ => False
  | .call station name _ _ =>
    station = "" ∨ name = "" ∨ ∀ r, Edit.route r ∈ before → r.id.text ≠ name
  | .close station _ => station = ""
  | .walk first second => first = "" ∨ second = ""

end Edit

theorem Name.ofText?_eq_none_iff {kind : NameKind} {s : String} :
    (ofText? s : Option (Name kind)) = none ↔ s = "" := by
  unfold ofText?
  split <;> simp_all

namespace Network

/-- An edit that is passed over leaves the network as it is. -/
theorem apply_of_isPassedOver {before : List Edit} {edit : Edit} (h : edit.IsPassedOver before) :
    (ofEdits before).apply edit = ofEdits before := by
  cases edit with
  | route r => exact h.elim
  | call station name calling window =>
    have hnone : Name.ofText? station = (none : Option StationId) ∨
        (ofEdits before).routeNamed? name = none := by
      rw [routeNamed?_ofEdits]
      rcases h with hstation | hname | hbefore
      · exact .inl (Name.ofText?_eq_none_iff.mpr hstation)
      · rw [Name.ofText?_eq_none_iff.mpr hname]
        exact .inr rfl
      · refine .inr (Option.eq_none_iff_forall_ne_some.mpr fun r hr => ?_)
        obtain ⟨id, hid, hlast⟩ := Option.bind_eq_some_iff.mp hr
        obtain ⟨hadded, hname⟩ := Edit.mem_of_lastRoute? hlast
        refine hbefore r hadded ?_
        rw [hname]
        exact Name.ofText?_eq_some_iff.mp hid
    rw [apply, addCall]
    split
    · next hstation hroute =>
      rw [hstation, hroute] at hnone
      rcases hnone with hnone | hnone <;> cases hnone
    · rfl
  | close station dates =>
    have hstation : Name.ofText? station = (none : Option StationId) :=
      Name.ofText?_eq_none_iff.mpr h
    rw [apply, addClosure, hstation]
  | walk first second =>
    rw [apply, addWalk]
    split
    · next hfirst hsecond =>
      rcases h with hempty | hempty
      · rw [Name.ofText?_eq_none_iff.mpr hempty] at hfirst
        cases hfirst
      · rw [Name.ofText?_eq_none_iff.mpr hempty] at hsecond
        cases hsecond
    · rfl

/-- **The network is the one that is put together without the edits that are passed over.** -/
theorem ofEdits_of_isPassedOver {before after : List Edit} {edit : Edit}
    (h : edit.IsPassedOver before) :
    ofEdits (before ++ edit :: after) = ofEdits (before ++ after) := by
  rw [ofEdits_append, ofEdits_append, List.foldl_cons, apply_of_isPassedOver h]

/-! ## The interchanges -/

variable {net : Network}

/-- Calls make an interchange of a station if two of them are calls of different routes. -/
theorem exists_interchangeOf_iff {station : StationId} {calls : List Call} :
    (∃ i, interchangeOf station calls = some i) ↔
      ∃ c ∈ calls, ∃ d ∈ calls, c.route.id ≠ d.route.id := by
  cases calls with
  | nil => simp [interchangeOf]
  | cons first calls =>
    have hany : (∃ i, interchangeOf station (first :: calls) = some i) ↔
        ∃ d ∈ calls, d.route.id ≠ first.route.id := by
      simp only [interchangeOf, List.any_eq_true, decide_eq_true_eq]
      split <;> simp_all
    rw [hany]
    constructor
    · rintro ⟨d, hd, hne⟩
      exact ⟨d, List.mem_cons_of_mem _ hd, first, List.mem_cons_self, hne⟩
    · rintro ⟨c, hc, d, hd, hne⟩
      -- one of the two calls is not of the route that calls first
      by_cases hfirst : c.route.id = first.route.id
      · rw [hfirst] at hne
        rcases List.mem_cons.mp hd with rfl | hd
        · exact absurd rfl hne
        · exact ⟨d, hd, hne.symm⟩
      · rcases List.mem_cons.mp hc with rfl | hc
        · exact absurd rfl hfirst
        · exact ⟨c, hc, hfirst⟩

theorem mem_stations_iff {station : StationId} :
    station ∈ net.stations ↔ ∃ c ∈ net.calls, c.station = station := by
  rw [stations, StationSet.ofList, Std.TreeSet.mem_toList, Std.TreeSet.mem_ofList,
    List.contains_iff_mem, List.mem_map]

/-- **A station is an interchange if calls of two different routes are recorded there.** -/
theorem exists_interchange_iff {station : StationId} :
    (∃ i ∈ net.interchanges, i.station = station) ↔
      ∃ c ∈ net.callsAt station, ∃ d ∈ net.callsAt station, c.route.id ≠ d.route.id := by
  have hof : (∃ i, interchangeOf station (net.callsAt station) = some i) ↔
      ∃ c ∈ net.callsAt station, ∃ d ∈ net.callsAt station, c.route.id ≠ d.route.id :=
    exists_interchangeOf_iff
  rw [← hof]
  constructor
  · rintro ⟨i, hi, rfl⟩
    exact ⟨i, interchangeOf_of_mem hi⟩
  · rintro ⟨i, hi⟩
    refine ⟨i, List.mem_filterMap.mpr ⟨station, ?_, hi⟩, interchangeOf_station hi⟩
    obtain ⟨c, hc, -⟩ := exists_interchangeOf_iff.mp ⟨i, hi⟩
    obtain ⟨hcall, hstation⟩ := mem_callsAt_iff.mp hc
    exact mem_stations_iff.mpr ⟨c, hcall, hstation⟩

/-- The interchanges are in the order of their stations, each once. -/
theorem pairwise_interchanges (net : Network) :
    net.interchanges.Pairwise fun i j => compare i.station j.station = .lt := by
  rw [interchanges, List.pairwise_filterMap]
  refine Std.TreeSet.ordered_toList.imp fun {a b} hlt i hi j hj => ?_
  rw [interchangeOf_station hi, interchangeOf_station hj]
  exact hlt

/-! ## Stations next to each other -/

theorem mem_walks_apply_iff {edit : Edit} {a b : StationId} :
    (a, b) ∈ (net.apply edit).walks ↔
      (a, b) ∈ net.walks ∨ edit = .walk a.text b.text ∨ edit = .walk b.text a.text := by
  cases edit with
  | walk first second =>
    rw [apply, addWalk]
    split
    · next first' second' hfirst hsecond =>
      rw [Name.ofText?_eq_some_iff] at hfirst hsecond
      have hname {x y : StationId} : x = y ↔ y.text = x.text :=
        ⟨fun h => h ▸ rfl, fun h => Name.ext h.symm⟩
      simp only [List.mem_append, List.mem_cons, List.not_mem_nil, or_false, Prod.mk.injEq,
        Edit.walk.injEq, hname, hfirst, hsecond, and_comm (a := second = a.text)]
    · next hnone =>
      refine ⟨.inl, ?_⟩
      rintro (hmem | hedit | hedit)
      · exact hmem
      all_goals
        cases hedit
        exact (hnone _ _ (Name.ofText?_eq_some_iff.mpr rfl) (Name.ofText?_eq_some_iff.mpr rfl)).elim
  | route r =>
    show (a, b) ∈ net.walks ↔ _
    simp
  | call station name calling window =>
    have hwalks : (net.addCall station name calling window).walks = net.walks := by
      rw [addCall]
      split <;> rfl
    rw [apply, hwalks]
    simp
  | close station dates =>
    have hwalks : (net.addClosure station dates).walks = net.walks := by
      rw [addClosure]
      split <;> rfl
    rw [apply, hwalks]
    simp

/-- **One can walk between the stations that an edit names**, either way. -/
theorem areNeighbours_ofEdits_iff {edits : List Edit} {a b : StationId} :
    (ofEdits edits).areNeighbours a b = true ↔
      .walk a.text b.text ∈ edits ∨ .walk b.text a.text ∈ edits := by
  rw [areNeighbours, List.contains_iff_mem]
  induction edits using List.reverseRecOn with
  | nil => simp [empty]
  | append_singleton edits edit ih =>
    rw [ofEdits_append, List.foldl_cons, List.foldl_nil, mem_walks_apply_iff, ih, List.mem_append,
      List.mem_append, List.mem_singleton, List.mem_singleton, eq_comm (a := edit),
      eq_comm (a := edit)]
    exact or_or_or_comm

theorem areNeighbours_ofEdits_comm (edits : List Edit) (a b : StationId) :
    (ofEdits edits).areNeighbours a b = (ofEdits edits).areNeighbours b a := by
  rw [Bool.eq_iff_iff, areNeighbours_ofEdits_iff, areNeighbours_ofEdits_iff]
  exact or_comm

/-- Walking between sets of stations is as symmetric as walking between stations. -/
theorem anyNeighbours_service_comm (h : ∀ a b, net.areNeighbours a b = net.areNeighbours b a)
    (first second : StationSet) :
    net.service.anyNeighbours first second = net.service.anyNeighbours second first := by
  rw [Bool.eq_iff_iff, anyNeighbours_service_iff, anyNeighbours_service_iff]
  constructor
  · rintro ⟨a, ha, b, hb, hnear⟩
    exact ⟨b, hb, a, ha, h a b ▸ hnear⟩
  · rintro ⟨a, ha, b, hb, hnear⟩
    exact ⟨b, hb, a, ha, h a b ▸ hnear⟩

/-! ## A network and its edits -/

/-- What a network holds is what its edits say. -/
structure Reflects (net : Network) (edits : List Edit) : Prop where
  /-- The routes are in the order of their names, and no name is repeated. -/
  routes_ascending : net.source.routes.Pairwise fun r s => r.id.bytes < s.id.bytes
  /-- They are the routes that were added last under their names. -/
  mem_routes_iff (r : Route) : r ∈ net.source.routes ↔ Edit.lastRoute? edits r.id = some r
  /-- Each name under which a route was added is that of a route. -/
  mem_ids_iff (id : RouteId) :
    id ∈ net.source.routes.map Route.id ↔ ∃ r, .route r ∈ edits ∧ r.id = id
  /-- Calls are of routes that are held. -/
  id_of_recorded (c : Call) :
    c ∈ Edit.recorded edits → c.route.id ∈ net.source.routes.map Route.id
  /-- So are the routes at interchanges. -/
  id_of_interchange (i : Interchange) (r : Route) : i ∈ net.interchanges →
    r ∈ i.dropoffs ∨ r ∈ i.pickups → r.id ∈ net.source.routes.map Route.id
  /-- The interchanges are in the order of their stations, and none is repeated. -/
  interchanges_ascending :
    net.interchanges.Pairwise fun i j => i.station.bytes < j.station.bytes
  /-- They are where calls of two different routes are recorded. -/
  exists_interchange_iff (station : StationId) :
    (∃ i ∈ net.interchanges, i.station = station) ↔
      ∃ c ∈ Edit.recorded edits, c.station = station ∧
        ∃ d ∈ Edit.recorded edits, d.station = station ∧ c.route.id ≠ d.route.id
  /-- The routes that set down at an interchange are those of the calls there, in their order. -/
  dropoffs_eq (i : Interchange) : i ∈ net.interchanges → i.dropoffs =
    ((Edit.recorded edits).filter fun c => c.station = i.station && c.calling.setsDown).map
      Call.route
  /-- So are the routes that pick up. -/
  pickups_eq (i : Interchange) : i ∈ net.interchanges → i.pickups =
    ((Edit.recorded edits).filter fun c => c.station = i.station && c.calling.picksUp).map
      Call.route
  /-- One can walk between two stations if an edit says so, in either order. -/
  areNeighbours_iff (a b : StationId) : net.service.areNeighbours a b = true ↔
    .walk a.text b.text ∈ edits ∨ .walk b.text a.text ∈ edits
  areNeighbours_comm (a b : StationId) :
    net.service.areNeighbours a b = net.service.areNeighbours b a
  /-- Between sets of stations one can walk if one can between two of their stations. -/
  anyNeighbours_iff (first second : StationSet) :
    net.service.anyNeighbours first second = true ↔
      ∃ a ∈ first, ∃ b ∈ second, net.service.areNeighbours a b = true
  anyNeighbours_comm (first second : StationSet) :
    net.service.anyNeighbours first second = net.service.anyNeighbours second first
  /-- An edit that is passed over might as well be missing. -/
  passesOver (before after : List Edit) (edit : Edit) : edits = before ++ edit :: after →
    edit.IsPassedOver before → net = ofEdits (before ++ after)

theorem mem_source_ofEdits_iff {edits : List Edit} {r : Route} :
    r ∈ (ofEdits edits).source.routes ↔ Edit.lastRoute? edits r.id = some r := by
  rw [mem_source_iff (known_ofEdits edits), Holds, getElem?_ofEdits]

theorem mem_ids_source_of_mem_calls {edits : List Edit} {c : Call}
    (hc : c ∈ (ofEdits edits).calls) :
    c.route.id ∈ (ofEdits edits).source.routes.map Route.id := by
  obtain ⟨r, hr⟩ := (known_ofEdits edits).exists_route hc
  have hid := (known_ofEdits edits).id_eq hr
  rw [← hid] at hr
  exact List.mem_map.mpr ⟨r, (mem_source_iff (known_ofEdits edits)).mpr hr, hid⟩

/-- **A network reflects its edits**, whatever they are. -/
theorem reflects_ofEdits (edits : List Edit) : (ofEdits edits).Reflects edits where
  routes_ascending :=
    (Route.ascending_values (known_ofEdits edits).id_eq).imp Name.compare_eq_lt_iff.mp
  mem_routes_iff r := mem_source_ofEdits_iff
  mem_ids_iff id := by
    rw [List.mem_map]
    constructor
    · rintro ⟨r, hr, rfl⟩
      exact ⟨r, (Edit.mem_of_lastRoute? (mem_source_ofEdits_iff.mp hr)).1, rfl⟩
    · rintro ⟨r, hr, rfl⟩
      obtain ⟨s, hs⟩ := Edit.exists_lastRoute? hr
      have hid : s.id = r.id := (Edit.mem_of_lastRoute? hs).2
      rw [← hid] at hs
      exact ⟨s, mem_source_ofEdits_iff.mpr hs, hid⟩
  id_of_recorded c hc := by
    rw [← calls_ofEdits] at hc
    exact mem_ids_source_of_mem_calls hc
  id_of_interchange i r hi hr := by
    obtain ⟨c, hc, rfl⟩ := exists_call_of_mem hi hr
    exact mem_ids_source_of_mem_calls hc
  interchanges_ascending :=
    (pairwise_interchanges _).imp Name.compare_eq_lt_iff.mp
  exists_interchange_iff station := by
    rw [Network.exists_interchange_iff, ← calls_ofEdits]
    simp only [mem_callsAt_iff, and_assoc]
  dropoffs_eq i hi := by
    rw [(routes_of_interchangeOf (interchangeOf_of_mem hi)).1, callsAt, List.filter_filter,
      calls_ofEdits]
    simp only [Bool.and_comm]
  pickups_eq i hi := by
    rw [(routes_of_interchangeOf (interchangeOf_of_mem hi)).2, callsAt, List.filter_filter,
      calls_ofEdits]
    simp only [Bool.and_comm]
  areNeighbours_iff a b := areNeighbours_ofEdits_iff
  areNeighbours_comm a b := areNeighbours_ofEdits_comm edits a b
  anyNeighbours_iff first second := anyNeighbours_service_iff
  anyNeighbours_comm first second :=
    anyNeighbours_service_comm (areNeighbours_ofEdits_comm edits) first second
  passesOver before after edit hedits h := by
    rw [hedits]
    exact ofEdits_of_isPassedOver h

end Network

/-! ## Edits that add nothing -/

namespace Careless

open SampleCity AddedAgain

/-- Two lines that meet at `S`.  The second is first called before it is added, then at a station
without a name. -/
def edits : List Edit := [
  .route (line "A" year),
  .stop "S" "A",
  .stop "S" "B",
  .route (line "B" (.single date)),
  .stop "" "B",
  .dropoffOnly "S" "B",
  .walk "S" "T"]

/-- The edits that add something. -/
def effective : List Edit := [
  .route (line "A" year),
  .stop "S" "A",
  .route (line "B" (.single date)),
  .dropoffOnly "S" "B",
  .walk "S" "T"]

/-- The edits but for the call before its line is added. -/
def later : List Edit := [
  .route (line "A" year),
  .stop "S" "A",
  .route (line "B" (.single date)),
  .stop "" "B",
  .dropoffOnly "S" "B",
  .walk "S" "T"]

theorem recorded_edits : Edit.recorded edits = [
    ⟨named "S", line "A" year, .both, .allDay⟩,
    ⟨named "S", line "B" (.single date), .dropoffOnly, .allDay⟩] := rfl

/-- The two edits might as well be missing, and `S` is an interchange where both lines set down and
the first picks up. -/
theorem edits_add_as_effective :
    Network.ofEdits edits = Network.ofEdits effective ∧
      (∃ i ∈ (Network.ofEdits edits).interchanges, i.station = named "S" ∧
        i.dropoffs = [line "A" year, line "B" (.single date)] ∧ i.pickups = [line "A" year]) ∧
      (Network.ofEdits edits).service.areNeighbours (named "T") (named "S") = true := by
  have h := Network.reflects_ofEdits edits
  refine ⟨?_, ?_, (h.areNeighbours_iff _ _).mpr (.inr ?_)⟩
  · have hlater : Network.ofEdits edits = Network.ofEdits later := by
      refine h.passesOver [.route (line "A" year), .stop "S" "A"] _ (.stop "S" "B") rfl
        (.inr (.inr fun r hr => ?_))
      rcases List.mem_cons.mp hr with hr | hr
      · cases hr
        decide
      · cases List.mem_singleton.mp hr
    rw [hlater]
    exact (Network.reflects_ofEdits later).passesOver
      [.route (line "A" year), .stop "S" "A", .route (line "B" (.single date))] _ (.stop "" "B") rfl
      (.inl rfl)
  · obtain ⟨i, hi, hstation⟩ := (h.exists_interchange_iff (named "S")).mpr
      ⟨_, recorded_edits ▸ List.mem_cons_self, rfl, _,
        recorded_edits ▸ List.mem_cons_of_mem _ List.mem_cons_self, rfl, by decide⟩
    refine ⟨i, hi, hstation, ?_, ?_⟩
    · rw [h.dropoffs_eq i hi, hstation, recorded_edits]
      rfl
    · rw [h.pickups_eq i hi, hstation, recorded_edits]
      rfl
  · exact List.mem_of_getElem? (i := 6) rfl

end Careless
end TransitChanges
