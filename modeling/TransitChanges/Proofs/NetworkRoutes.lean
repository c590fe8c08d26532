import Mathlib.Data.List.Induction
import TransitChanges.Network.Edit
import TransitChanges.Operating
import TransitChanges.Proofs.Expansion

/-!
# The routes of a network and its calls

Tables are numbered by the routes that a network holds, but they are filled from the routes of its
calls, which are kept as they were when the call was recorded.  Two things hold of a network however
it was put together, and are all that the tables need to be built: routes are held under their
names, and every call is of a name that is held (`Network.Known`).

If no route is added again under its name, the route of a call is the very one that the network
holds (`Network.Settled`).

* `known_ofEdits`, `settled_ofEdits`: what every edit keeps.
* `mem_dropoffs_iff`, `mem_pickups_iff`: the routes of an interchange are those of its calls.
* `covers_of_mem_interchanges`: the routes at the interchanges of a network are numbered.
* `exists_connections`: the tables of a network of not too many routes are built.
-/

namespace TransitChanges

/-! ## Values of a map -/

section Values

variable {α β : Type} [Ord α] [Std.TransOrd α] [Std.LawfulEqOrd α]

omit [Std.TransOrd α] [Std.LawfulEqOrd α] in
theorem values_eq_map_toList (map : Std.TreeMap α β) : map.values = map.toList.map Prod.snd := by
  have hfold : map.values = map.foldr (fun _ value l => value :: l) [] := rfl
  rw [hfold, Std.TreeMap.foldr_eq_foldr_toList]
  exact List.map_eq_foldr.symm

theorem mem_values_iff {map : Std.TreeMap α β} {value : β} :
    value ∈ map.values ↔ ∃ key : α, map[key]? = some value := by
  rw [values_eq_map_toList, List.mem_map]
  constructor
  · rintro ⟨⟨key, v⟩, hmem, rfl⟩
    exact ⟨key, Std.TreeMap.mem_toList_iff_getElem?_eq_some.mp hmem⟩
  · rintro ⟨key, hkey⟩
    exact ⟨(key, value), Std.TreeMap.mem_toList_iff_getElem?_eq_some.mpr hkey, rfl⟩

end Values

/-! ## Routes listed by name -/

namespace Route

theorem mem_of_foldl_insert {routes : List Route} {map : Std.TreeMap RouteId Route} {id : RouteId}
    {r : Route} (h : (routes.foldl (fun map r => map.insert r.id r) map)[id]? = some r) :
    map[id]? = some r ∨ r ∈ routes := by
  induction routes generalizing map with
  | nil => exact .inl h
  | cons s routes ih =>
    rcases ih h with hmap | hmem
    · rw [Std.TreeMap.getElem?_insert] at hmap
      split at hmap
      · rw [Option.some.inj hmap]
        exact .inr List.mem_cons_self
      · exact .inl hmap
    · exact .inr (List.mem_cons_of_mem _ hmem)

/-- Listing routes by name adds none. -/
theorem mem_of_mem_byName {routes : List Route} {r : Route} (h : r ∈ (byName routes).values) :
    r ∈ routes := by
  obtain ⟨id, hid⟩ := mem_values_iff.mp h
  rcases mem_of_foldl_insert hid with hempty | hmem
  · rw [Std.TreeMap.getElem?_emptyc] at hempty
    cases hempty
  · exact hmem

/-- Listing routes by name loses no name. -/
theorem exists_getElem?_foldl_insert {routes : List Route} {map : Std.TreeMap RouteId Route}
    {id : RouteId} (h : (∃ s, map[id]? = some s ∧ s.id = id) ∨ ∃ r ∈ routes, r.id = id) :
    ∃ s, (routes.foldl (fun map r => map.insert r.id r) map)[id]? = some s ∧ s.id = id := by
  induction routes generalizing map with
  | nil =>
    rcases h with h | ⟨r, hr, -⟩
    · exact h
    · cases hr
  | cons t routes ih =>
    refine ih ?_
    rw [Std.TreeMap.getElem?_insert]
    split
    · next heq => exact .inl ⟨t, rfl, Name.compare_eq_iff.mp heq⟩
    · next hne =>
      rcases h with h | ⟨r, hr, hid⟩
      · exact .inl h
      · rcases List.mem_cons.mp hr with rfl | hr
        · exact absurd (Name.compare_eq_iff.mpr hid) hne
        · exact .inr ⟨r, hr, hid⟩

theorem exists_mem_byName {routes : List Route} {r : Route} (h : r ∈ routes) :
    ∃ s ∈ (byName routes).values, s.id = r.id := by
  have hfold : ∃ s, (byName routes)[r.id]? = some s ∧ s.id = r.id :=
    exists_getElem?_foldl_insert (.inr ⟨r, h, rfl⟩)
  obtain ⟨s, hs, hid⟩ := hfold
  exact ⟨s, mem_values_iff.mpr ⟨r.id, hs⟩, hid⟩

theorem dropRepeatsOf_sublist (id : RouteId) (routes : List Route) :
    (dropRepeatsOf id routes).Sublist routes := by
  induction routes generalizing id with
  | nil => exact .slnil
  | cons r routes ih =>
    unfold dropRepeatsOf
    split
    · exact (ih id).cons r
    · exact (ih r.id).cons_cons r

theorem dropRepeats_sublist (routes : List Route) : (dropRepeats routes).Sublist routes := by
  cases routes with
  | nil => exact .slnil
  | cons r routes => exact (dropRepeatsOf_sublist r.id routes).cons_cons r

/-- Sorting routes adds none. -/
theorem mem_of_mem_sortedOnce {routes : List Route} {r : Route} (h : r ∈ sortedOnce routes) :
    r ∈ routes :=
  List.mem_mergeSort.mp ((dropRepeats_sublist _).mem h)

theorem exists_mem_dropRepeatsOf (id : RouteId) {routes : List Route} {r : Route}
    (h : r ∈ routes) : r.id = id ∨ ∃ s ∈ dropRepeatsOf id routes, s.id = r.id := by
  induction routes generalizing id with
  | nil => cases h
  | cons t routes ih =>
    unfold dropRepeatsOf
    split
    · next heq =>
      rcases List.mem_cons.mp h with rfl | h
      · exact .inl heq
      · exact ih id h
    · rcases List.mem_cons.mp h with rfl | h
      · exact .inr ⟨r, List.mem_cons_self, rfl⟩
      · rcases ih t.id h with heq | ⟨s, hs, hid⟩
        · exact .inr ⟨t, List.mem_cons_self, heq.symm⟩
        · exact .inr ⟨s, List.mem_cons_of_mem _ hs, hid⟩

/-- Sorting routes loses no name. -/
theorem exists_mem_sortedOnce {routes : List Route} {r : Route} (h : r ∈ routes) :
    ∃ s ∈ sortedOnce routes, s.id = r.id := by
  have hmem : r ∈ routes.mergeSort fun r s => r.id.le s.id := List.mem_mergeSort.mpr h
  unfold sortedOnce
  cases hsorted : routes.mergeSort fun r s => r.id.le s.id with
  | nil =>
    rw [hsorted] at hmem
    cases hmem
  | cons t rest =>
    rw [hsorted] at hmem
    rw [dropRepeats]
    rcases List.mem_cons.mp hmem with rfl | hmem
    · exact ⟨r, List.mem_cons_self, rfl⟩
    · rcases exists_mem_dropRepeatsOf t.id hmem with heq | ⟨s, hs, hid⟩
      · exact ⟨t, List.mem_cons_self, heq.symm⟩
      · exact ⟨s, List.mem_cons_of_mem _ hs, hid⟩

end Route

/-! ## What an edit can do -/

namespace Edit

/-- The name of the route that an edit adds. -/
def added? : Edit → Option RouteId
  | .route r => some r.id
  | _ => none

/-- No route is added again under its name. -/
def AddOnce (edits : List Edit) : Prop :=
  (edits.filterMap added?).Nodup

instance (edits : List Edit) : Decidable (AddOnce edits) :=
  inferInstanceAs (Decidable (edits.filterMap added?).Nodup)

end Edit

namespace Network

variable {net : Network}

theorem mem_of_routeNamed? {name : String} {r : Route} (h : net.routeNamed? name = some r) :
    ∃ id : RouteId, net.routes[id]? = some r := by
  unfold routeNamed? at h
  obtain ⟨id, -, hid⟩ := Option.bind_eq_some_iff.mp h
  exact ⟨id, hid⟩

/-- An edit adds a route, or it adds at most one call, of a route that is held. -/
theorem apply_cases (net : Network) (edit : Edit) :
    (∃ r, edit.added? = some r.id ∧ (net.apply edit).routes = net.routes.insert r.id r ∧
      (net.apply edit).calls = net.calls) ∨
    (edit.added? = none ∧ (net.apply edit).routes = net.routes ∧
      ((net.apply edit).calls = net.calls ∨ ∃ (c : Call) (id : RouteId),
        net.routes[id]? = some c.route ∧ (net.apply edit).calls = net.calls ++ [c])) := by
  cases edit with
  | route r => exact .inl ⟨r, rfl, rfl, rfl⟩
  | call station route calling window =>
    refine .inr ⟨rfl, ?_⟩
    simp only [apply, addCall]
    split
    · next station r _ hr =>
      obtain ⟨id, hid⟩ := mem_of_routeNamed? hr
      exact ⟨rfl, .inr ⟨⟨station, r, calling, window⟩, id, hid, rfl⟩⟩
    · exact ⟨rfl, .inl rfl⟩
  | close station dates =>
    refine .inr ⟨rfl, ?_⟩
    simp only [apply, addClosure]
    split
    · exact ⟨rfl, .inl rfl⟩
    · exact ⟨rfl, .inl rfl⟩
  | walk first second =>
    refine .inr ⟨rfl, ?_⟩
    simp only [apply, addWalk]
    split
    · exact ⟨rfl, .inl rfl⟩
    · exact ⟨rfl, .inl rfl⟩

/-- Routes are held under their names, and every call is of a name that is held. -/
structure Known (net : Network) : Prop where
  id_eq {id : RouteId} {r : Route} : net.routes[id]? = some r → r.id = id
  exists_route {c : Call} : c ∈ net.calls → ∃ r, net.routes[c.route.id]? = some r

theorem Known.apply (h : net.Known) (edit : Edit) : (net.apply edit).Known := by
  rcases apply_cases net edit with ⟨r, -, hroutes, hcalls⟩ | ⟨-, hroutes, hcalls⟩
  · constructor
    · intro id s hs
      rw [hroutes, Std.TreeMap.getElem?_insert] at hs
      split at hs
      · next heq =>
        rw [← Option.some.inj hs]
        exact Name.compare_eq_iff.mp heq
      · exact h.id_eq hs
    · intro c hc
      rw [hcalls] at hc
      obtain ⟨s, hs⟩ := h.exists_route hc
      rw [hroutes, Std.TreeMap.getElem?_insert]
      split
      · exact ⟨r, rfl⟩
      · exact ⟨s, hs⟩
  · constructor
    · intro id s hs
      rw [hroutes] at hs
      exact h.id_eq hs
    · intro c hc
      rw [hroutes]
      rcases hcalls with hcalls | ⟨d, id, hid, hcalls⟩
      · rw [hcalls] at hc
        exact h.exists_route hc
      · rw [hcalls, List.mem_append, List.mem_singleton] at hc
        rcases hc with hc | rfl
        · exact h.exists_route hc
        · rw [h.id_eq hid]
          exact ⟨c.route, hid⟩

/-- **However a network was put together**, its routes are held under their names and its calls are
of names that are held. -/
theorem known_ofEdits (edits : List Edit) : (ofEdits edits).Known := by
  induction edits using List.reverseRecOn with
  | nil =>
    constructor
    · intro id r h
      rw [ofEdits_nil, empty, Std.TreeMap.getElem?_emptyc] at h
      cases h
    · intro c hc
      cases hc
  | append_singleton edits edit ih =>
    rw [ofEdits_append]
    exact ih.apply edit

/-- The routes of a network are among those that were added. -/
theorem mem_added_of_getElem? {edits : List Edit} {id : RouteId} {r : Route}
    (h : (ofEdits edits).routes[id]? = some r) : id ∈ edits.filterMap Edit.added? := by
  induction edits using List.reverseRecOn generalizing r with
  | nil =>
    rw [ofEdits_nil, empty, Std.TreeMap.getElem?_emptyc] at h
    cases h
  | append_singleton edits edit ih =>
    rw [ofEdits_append] at h
    rw [List.filterMap_append, List.mem_append]
    rcases apply_cases (ofEdits edits) edit with ⟨s, hadded, hroutes, -⟩ | ⟨-, hroutes, -⟩
    · rw [List.foldl_cons, List.foldl_nil, hroutes, Std.TreeMap.getElem?_insert] at h
      split at h
      · next heq =>
        refine .inr (List.mem_filterMap.mpr ⟨edit, List.mem_singleton_self edit, ?_⟩)
        rw [hadded, Name.compare_eq_iff.mp heq]
      · exact .inl (ih h)
    · rw [List.foldl_cons, List.foldl_nil, hroutes] at h
      exact .inl (ih h)

/-- A route is the one that the network holds under its name. -/
def Holds (net : Network) (r : Route) : Prop :=
  net.routes[r.id]? = some r

instance (net : Network) (r : Route) : Decidable (net.Holds r) :=
  inferInstanceAs (Decidable (net.routes[r.id]? = some r))

theorem eq_of_id_eq {r s : Route} (hr : net.Holds r) (hs : net.Holds s) (hid : r.id = s.id) :
    r = s := by
  rw [Holds, hid, hs] at hr
  exact (Option.some.inj hr).symm

/-- The routes of calls are those that the network holds. -/
def Settled (net : Network) : Prop :=
  ∀ c ∈ net.calls, net.Holds c.route

/-- **If no route is added again, calls are of the routes that the network holds.** -/
theorem settled_ofEdits {edits : List Edit} (h : Edit.AddOnce edits) : (ofEdits edits).Settled := by
  induction edits using List.reverseRecOn with
  | nil =>
    intro c hc
    cases hc
  | append_singleton edits edit ih =>
    rw [Edit.AddOnce, List.filterMap_append, List.nodup_append] at h
    obtain ⟨hbefore, -, hnew⟩ := h
    have hsettled := ih hbefore
    rw [ofEdits_append, List.foldl_cons, List.foldl_nil]
    rcases apply_cases (ofEdits edits) edit with ⟨r, hadded, hroutes, hcalls⟩ | ⟨-, hroutes, hcalls⟩
    · intro c hc
      rw [hcalls] at hc
      have hheld := hsettled c hc
      rw [Holds, hroutes, Std.TreeMap.getElem?_insert, if_neg ?_]
      · exact hheld
      · rw [Name.compare_eq_iff]
        intro heq
        refine hnew _ (mem_added_of_getElem? hheld) r.id ?_ heq.symm
        exact List.mem_filterMap.mpr ⟨edit, List.mem_singleton_self edit, hadded⟩
    · intro c hc
      rw [Holds, hroutes]
      rcases hcalls with hcalls | ⟨d, id, hid, hcalls⟩
      · rw [hcalls] at hc
        exact hsettled c hc
      · rw [hcalls, List.mem_append, List.mem_singleton] at hc
        rcases hc with hc | rfl
        · exact hsettled c hc
        · rw [(known_ofEdits edits).id_eq hid]
          exact hid

/-! ## The routes that are served -/

theorem mem_source_iff (h : net.Known) {r : Route} :
    r ∈ net.source.routes ↔ net.Holds r := by
  rw [source, mem_values_iff, Holds]
  constructor
  · rintro ⟨id, hid⟩
    rw [h.id_eq hid]
    exact hid
  · exact fun hr => ⟨r.id, hr⟩

/-- The names of the routes that are served are the keys under which they are held. -/
theorem map_id_source (h : net.Known) : net.source.routes.map Route.id = net.routes.keys := by
  rw [source, values_eq_map_toList, List.map_map, ← Std.TreeMap.map_fst_toList_eq_keys]
  refine List.map_congr_left fun entry hentry => ?_
  exact h.id_eq (Std.TreeMap.mem_toList_iff_getElem?_eq_some.mp hentry)

theorem nodup_source (h : net.Known) : (net.source.routes.map Route.id).Nodup := by
  rw [map_id_source h]
  exact Std.TreeMap.nodup_keys

theorem length_source (net : Network) : net.source.routes.length = net.routes.size := by
  rw [source, values_eq_map_toList, List.length_map, Std.TreeMap.length_toList]

/-- The routes of calls are numbered with those of the network. -/
theorem exists_indexOf_of_mem_calls (h : net.Known) {n : Numbering}
    (hn : Numbering.build net.source = .ok n) {c : Call} (hc : c ∈ net.calls) :
    ∃ index, n.indexOf c.route.id = .ok index := by
  obtain ⟨r, hr⟩ := h.exists_route hc
  have hid := h.id_eq hr
  rw [← hid] at hr ⊢
  exact Numbering.exists_indexOf_of_build hn ((mem_source_iff h).mpr hr)

/-! ## The routes of an interchange -/

theorem mem_callsAt_iff {station : StationId} {c : Call} :
    c ∈ net.callsAt station ↔ c ∈ net.calls ∧ c.station = station := by
  rw [callsAt, List.mem_filter, decide_eq_true_eq]

theorem routes_of_interchangeOf {station : StationId} {calls : List Call} {i : Interchange}
    (h : interchangeOf station calls = some i) :
    i.dropoffs = (calls.filter fun c => c.calling.setsDown).map Call.route ∧
      i.pickups = (calls.filter fun c => c.calling.picksUp).map Call.route := by
  unfold interchangeOf at h
  split at h
  · cases h
  · split at h
    · rw [← Option.some.inj h]
      exact ⟨rfl, rfl⟩
    · cases h

theorem interchangeOf_of_mem {i : Interchange} (h : i ∈ net.interchanges) :
    interchangeOf i.station (net.callsAt i.station) = some i := by
  obtain ⟨station, -, hi⟩ := List.mem_filterMap.mp h
  rw [interchangeOf_station hi]
  exact hi

/-- An interchange of a network is known by its station. -/
theorem eq_of_station_eq {i j : Interchange} (hi : i ∈ net.interchanges)
    (hj : j ∈ net.interchanges) (h : i.station = j.station) : i = j := by
  have hi' := interchangeOf_of_mem hi
  rw [h, interchangeOf_of_mem hj] at hi'
  exact (Option.some.inj hi').symm

theorem mem_dropoffs_iff {i : Interchange} (hi : i ∈ net.interchanges) {r : Route} :
    r ∈ i.dropoffs ↔ ∃ c ∈ net.calls, c.station = i.station ∧ c.calling.setsDown = true ∧
      c.route = r := by
  rw [(routes_of_interchangeOf (interchangeOf_of_mem hi)).1]
  simp only [List.mem_map, List.mem_filter, mem_callsAt_iff, and_assoc]

theorem mem_pickups_iff {i : Interchange} (hi : i ∈ net.interchanges) {r : Route} :
    r ∈ i.pickups ↔ ∃ c ∈ net.calls, c.station = i.station ∧ c.calling.picksUp = true ∧
      c.route = r := by
  rw [(routes_of_interchangeOf (interchangeOf_of_mem hi)).2]
  simp only [List.mem_map, List.mem_filter, mem_callsAt_iff, and_assoc]

/-- A route at an interchange is that of some call. -/
theorem exists_call_of_mem {i : Interchange} (hi : i ∈ net.interchanges) {r : Route}
    (hr : r ∈ i.dropoffs ∨ r ∈ i.pickups) : ∃ c ∈ net.calls, c.route = r := by
  rcases hr with hr | hr
  · obtain ⟨c, hc, -, -, hroute⟩ := (mem_dropoffs_iff hi).mp hr
    exact ⟨c, hc, hroute⟩
  · obtain ⟨c, hc, -, -, hroute⟩ := (mem_pickups_iff hi).mp hr
    exact ⟨c, hc, hroute⟩

/-- **The routes at the interchanges of a network are numbered.** -/
theorem covers_of_mem_interchanges (h : net.Known) {n : Numbering}
    (hn : Numbering.build net.source = .ok n) {i : Interchange} (hi : i ∈ net.interchanges) :
    n.Covers i := by
  intro r hr
  obtain ⟨c, hc, rfl⟩ := exists_call_of_mem hi hr
  exact exists_indexOf_of_mem_calls h hn hc

/-! ## The routes of a query -/

/-- A route that a query finds at a station is that of a wanted call that is made there. -/
theorem exists_call_of_mem_routesAt {wanted : Calling → Bool} {station : StationId} {scope : Scope}
    {r : Route} (h : r ∈ net.routesAt wanted station scope) :
    ∃ c ∈ net.calls, c.station = station ∧ wanted c.calling = true ∧ c.isMade scope = true ∧
      c.route = r := by
  obtain ⟨c, hc, hroute⟩ := List.mem_map.mp (Route.mem_of_mem_sortedOnce h)
  obtain ⟨hat, hmade⟩ := List.mem_filter.mp hc
  obtain ⟨hcalls, hstation⟩ := mem_callsAt_iff.mp hat
  rw [Bool.and_eq_true] at hmade
  exact ⟨c, hcalls, hstation, hmade.1, hmade.2, hroute⟩

/-- The name of a wanted call that is made at a station is found there. -/
theorem exists_mem_routesAt (wanted : Calling → Bool) {scope : Scope} {c : Call}
    (hc : c ∈ net.calls) (hwanted : wanted c.calling = true) (hmade : c.isMade scope = true) :
    ∃ r ∈ net.routesAt wanted c.station scope, r.id = c.route.id := by
  have hcall : c ∈ (net.callsAt c.station).filter fun d => wanted d.calling && d.isMade scope := by
    rw [List.mem_filter, hwanted, hmade]
    exact ⟨mem_callsAt_iff.mpr ⟨hc, rfl⟩, rfl⟩
  exact Route.exists_mem_sortedOnce (List.mem_map.mpr ⟨c, hcall, rfl⟩)

/-- A station is available if it is open and some call is made there. -/
theorem isAvailable_of_mem {scope : Scope} {c : Call} (hc : c ∈ net.calls)
    (hmade : c.isMade scope = true) (hopen : net.isClosed c.station scope.date = false) :
    net.isAvailable c.station scope = true := by
  obtain ⟨r, hr, -⟩ := exists_mem_routesAt (fun _ => true) hc rfl hmade
  rw [isAvailable, hopen, Bool.not_false, Bool.true_and, Bool.not_eq_true',
    List.isEmpty_eq_false_iff]
  exact List.ne_nil_of_mem hr

/-- A station is available exactly if it is open and some call is made there. -/
theorem isAvailable_iff {station : StationId} {scope : Scope} :
    net.isAvailable station scope = true ↔ net.isClosed station scope.date = false ∧
      ∃ c ∈ net.calls, c.station = station ∧ c.isMade scope = true := by
  constructor
  · intro h
    rw [isAvailable, Bool.and_eq_true, Bool.not_eq_true', Bool.not_eq_true',
      List.isEmpty_eq_false_iff_exists_mem] at h
    obtain ⟨hopen, r, hr⟩ := h
    obtain ⟨c, hc, hstation, -, hmade, -⟩ := exists_call_of_mem_routesAt hr
    exact ⟨hopen, c, hc, hstation, hmade⟩
  · rintro ⟨hopen, c, hc, rfl, hmade⟩
    exact isAvailable_of_mem hc hmade hopen

/-- The routes that a query finds at any of some stations, by name. -/
def routesAtAny (net : Network) (wanted : Calling → Bool) (stations : StationSet) (scope : Scope) :
    List Route :=
  (Route.byName (stations.toList.flatMap fun station => net.routesAt wanted station scope)).values

theorem pickupsAt_service (stations : StationSet) (scope : Scope) :
    net.service.pickupsAt stations scope = net.routesAtAny Calling.picksUp stations scope := rfl

theorem dropoffsAt_service (stations : StationSet) (scope : Scope) :
    net.service.dropoffsAt stations scope = net.routesAtAny Calling.setsDown stations scope := rfl

section AtAny

variable {wanted : Calling → Bool} {stations : StationSet} {scope : Scope} {r : Route}

/-- A route that a query finds is that of a wanted call that is made at one of the stations. -/
theorem exists_call_of_mem_routesAtAny (hr : r ∈ net.routesAtAny wanted stations scope) :
    ∃ c ∈ net.calls, c.station ∈ stations.toList ∧ wanted c.calling = true ∧
      c.isMade scope = true ∧ c.route = r := by
  obtain ⟨station, hstation, hfound⟩ := List.mem_flatMap.mp (Route.mem_of_mem_byName hr)
  obtain ⟨c, hc, rfl, hwanted, hmade, hroute⟩ := exists_call_of_mem_routesAt hfound
  exact ⟨c, hc, hstation, hwanted, hmade, hroute⟩

/-- What holds of the routes of all wanted calls at some stations holds of the routes of a query. -/
theorem of_mem_routesAtAny {motive : Route → Prop}
    (h : ∀ c ∈ net.calls, c.station ∈ stations.toList → wanted c.calling = true → motive c.route)
    (hr : r ∈ net.routesAtAny wanted stations scope) : motive r := by
  obtain ⟨c, hc, hstation, hwanted, -, rfl⟩ := exists_call_of_mem_routesAtAny hr
  exact h c hc hstation hwanted

/-- The routes of a query are numbered. -/
theorem exists_indexOf_of_mem_routesAtAny (h : net.Known) {n : Numbering}
    (hn : Numbering.build net.source = .ok n) (hr : r ∈ net.routesAtAny wanted stations scope) :
    ∃ index, n.indexOf r.id = .ok index := by
  obtain ⟨c, hc, -, -, -, rfl⟩ := exists_call_of_mem_routesAtAny hr
  exact exists_indexOf_of_mem_calls h hn hc

/-- If calls are of the routes that the network holds, so are the routes of a query. -/
theorem holds_of_mem_routesAtAny (h : net.Settled)
    (hr : r ∈ net.routesAtAny wanted stations scope) : net.Holds r := by
  obtain ⟨c, hc, -, -, -, rfl⟩ := exists_call_of_mem_routesAtAny hr
  exact h c hc

/-- The route of a wanted call that is made at one of the stations is found. -/
theorem mem_routesAtAny (h : net.Settled) {c : Call} (hc : c ∈ net.calls)
    (hstation : c.station ∈ stations.toList) (hwanted : wanted c.calling = true)
    (hmade : c.isMade scope = true) : c.route ∈ net.routesAtAny wanted stations scope := by
  obtain ⟨s, hs, hid⟩ := exists_mem_routesAt wanted hc hwanted hmade
  have hfound : s ∈ stations.toList.flatMap fun station => net.routesAt wanted station scope :=
    List.mem_flatMap.mpr ⟨c.station, hstation, hs⟩
  obtain ⟨t, ht, hid'⟩ := Route.exists_mem_byName hfound
  have hroute : t.id = c.route.id := hid'.trans hid
  rw [← eq_of_id_eq (holds_of_mem_routesAtAny h ht) (h c hc) hroute]
  exact ht

end AtAny

/-- A network answers for a station, whatever routes it is asked with. -/
theorem answersFor_service (net : Network) (scope : Scope) :
    net.service.AnswersFor scope fun station => net.isAvailable station scope := by
  intro i
  show (!net.isClosed i.station scope.date && net.isAvailable i.station scope) =
    net.isAvailable i.station scope
  unfold isAvailable
  cases net.isClosed i.station scope.date <;> rfl

theorem answersAt_of_eq_service {net : Network} {service : Service} (h : service = net.service)
    {interchanges : List Interchange} (scope : Scope) :
    service.AnswersAt scope interchanges fun station => net.isAvailable station scope := by
  rw [h]
  exact fun i _ => net.answersFor_service scope i

/-- **The tables of a network of not too many routes are built.** -/
theorem exists_connections (h : net.Known) (hsize : net.routes.size ≤ maxRoutes) :
    ∃ tables, Connections.build net.source net.interchanges = .ok tables := by
  rw [← length_source] at hsize
  exact Connections.exists_build hsize fun n hn i hi => covers_of_mem_interchanges h hn hi

end Network
end TransitChanges
