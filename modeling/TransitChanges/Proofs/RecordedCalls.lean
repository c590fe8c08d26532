import TransitChanges.Proofs.LastEntries
import TransitChanges.Proofs.NetworkRoutes

/-!
# The routes and calls that edits record

A network keeps the route that was added last under a name, and its calls in the order in which they
were made.  A call is recorded with the route that its name stands for at the time, and not at all
if its name stands for none.  So what one edit records depends on the edits before it
(`Edit.recorded?`), and the calls of a network are what its edits record, one after the other.

* `getElem?_ofEdits`: the route of a name.
* `calls_ofEdits`: the calls, in their order.
* `mem_calls_ofEdits_iff`: which calls there are (`Edit.Records`).
-/

namespace TransitChanges

namespace Edit

/-- The route that an edit adds. -/
def route? : Edit → Option Route
  | .route r => some r
  | _ => none

/-- The route that was added last under a name. -/
def lastRoute? (edits : List Edit) (id : RouteId) : Option Route :=
  (edits.filterMap route?).findRev? fun r => r.id = id

theorem lastRoute?_append (edits more : List Edit) (id : RouteId) :
    lastRoute? (edits ++ more) id = (lastRoute? more id).or (lastRoute? edits id) := by
  simp only [lastRoute?, List.filterMap_append, List.findRev?_eq_find?_reverse,
    List.reverse_append, List.find?_append]

theorem added?_eq_map_route? (edit : Edit) : edit.added? = edit.route?.map Route.id := by
  cases edit <;> rfl

theorem route?_eq_some_iff {edit : Edit} {r : Route} : edit.route? = some r ↔ edit = .route r := by
  cases edit <;> simp [route?]

/-- The route that was added last under a name was added. -/
theorem mem_of_lastRoute? {edits : List Edit} {id : RouteId} {r : Route}
    (h : lastRoute? edits id = some r) : .route r ∈ edits ∧ r.id = id := by
  obtain ⟨hmem, hid⟩ := of_findRev?_eq_some h
  obtain ⟨edit, hedit, hroute⟩ := List.mem_filterMap.mp hmem
  rw [route?_eq_some_iff] at hroute
  rw [← hroute]
  exact ⟨hedit, of_decide_eq_true hid⟩

/-- Some route was added last under the name of a route that was added. -/
theorem exists_lastRoute? {edits : List Edit} {r : Route} (h : .route r ∈ edits) :
    ∃ s, lastRoute? edits r.id = some s :=
  exists_findRev?_iff.mpr
    ⟨r, List.mem_filterMap.mpr ⟨.route r, h, rfl⟩, decide_eq_true rfl⟩

/-- The call that an edit records, if it names a station and a route that was added before. -/
def recorded? (before : List Edit) : Edit → Option Call
  | .call station name calling window =>
    match Name.ofText? station, (Name.ofText? name).bind (lastRoute? before) with
    | some station, some r => some ⟨station, r, calling, window⟩
    | _, _ => none
  | _ => none

/-- The calls that edits record after some others, in the order of the edits. -/
def recordedAfter (before : List Edit) : List Edit → List Call
  | [] => []
  | edit :: edits => (recorded? before edit).toList ++ recordedAfter (before ++ [edit]) edits

/-- The calls that edits record, in their order. -/
def recorded (edits : List Edit) : List Call :=
  recordedAfter [] edits

/-- One of the edits is a call, of the route that was last added under its name before. -/
def Records (edits : List Edit) (c : Call) : Prop :=
  ∃ before after,
    edits = before ++ .call c.station.text c.route.id.text c.calling c.window :: after ∧
      lastRoute? before c.route.id = some c.route

theorem recorded?_eq_some_iff {before : List Edit} {edit : Edit} {c : Call} :
    recorded? before edit = some c ↔
      edit = .call c.station.text c.route.id.text c.calling c.window ∧
        lastRoute? before c.route.id = some c.route := by
  constructor
  · intro h
    cases edit with
    | call station name calling window =>
      rw [recorded?] at h
      split at h
      · next station' r hstation hroute =>
        obtain rfl := Option.some.inj h
        obtain ⟨id, hid, hlast⟩ := Option.bind_eq_some_iff.mp hroute
        have hname : r.id = id := (mem_of_lastRoute? hlast).2
        rw [← hname] at hid hlast
        rw [Name.ofText?_eq_some_iff] at hstation hid
        exact ⟨by rw [hstation, hid], hlast⟩
      · cases h
    | route | close | walk => cases h
  · rintro ⟨rfl, hlast⟩
    have hstation : Name.ofText? c.station.text = some c.station := Name.ofText?_eq_some_iff.mpr rfl
    have hname : Name.ofText? c.route.id.text = some c.route.id := Name.ofText?_eq_some_iff.mpr rfl
    rw [recorded?, hstation, hname, Option.bind_some, hlast]

theorem mem_recordedAfter_iff {before edits : List Edit} {c : Call} :
    c ∈ recordedAfter before edits ↔ ∃ added edit after,
      edits = added ++ edit :: after ∧ recorded? (before ++ added) edit = some c := by
  induction edits generalizing before with
  | nil => simp [recordedAfter]
  | cons first edits ih =>
    rw [recordedAfter, List.mem_append, Option.mem_toList, ih]
    constructor
    · rintro (h | ⟨added, edit, after, rfl, h⟩)
      · exact ⟨[], first, edits, rfl, by rwa [List.append_nil]⟩
      · exact ⟨first :: added, edit, after, rfl, by rwa [List.append_assoc] at h⟩
    · rintro ⟨added, edit, after, heq, h⟩
      cases added with
      | nil =>
        cases heq
        exact .inl (by rwa [List.append_nil] at h)
      | cons second added =>
        cases heq
        exact .inr ⟨added, edit, after, rfl, by rwa [List.append_assoc]⟩

/-- A call is recorded if one of the edits makes it. -/
theorem mem_recorded_iff {edits : List Edit} {c : Call} : c ∈ recorded edits ↔ Records edits c := by
  rw [recorded, mem_recordedAfter_iff]
  constructor
  · rintro ⟨before, edit, after, rfl, h⟩
    obtain ⟨rfl, hlast⟩ := recorded?_eq_some_iff.mp h
    exact ⟨before, after, rfl, hlast⟩
  · rintro ⟨before, after, rfl, hlast⟩
    exact ⟨before, _, after, rfl, recorded?_eq_some_iff.mpr ⟨rfl, hlast⟩⟩

end Edit

namespace Network

theorem routes_apply_of_route?_eq_none {net : Network} {edit : Edit} (h : edit.route? = none) :
    (net.apply edit).routes = net.routes := by
  rcases apply_cases net edit with ⟨r, hadded, -⟩ | ⟨-, hroutes, -⟩
  · rw [Edit.added?_eq_map_route?, h] at hadded
    cases hadded
  · exact hroutes

/-- A network holds the route that was added last under a name. -/
theorem getElem?_ofEdits (edits : List Edit) (id : RouteId) :
    (ofEdits edits).routes[id]? = Edit.lastRoute? edits id := by
  induction edits using List.reverseRecOn with
  | nil => exact Std.TreeMap.getElem?_emptyc
  | append_singleton edits edit ih =>
    rw [ofEdits_append, List.foldl_cons, List.foldl_nil, Edit.lastRoute?_append]
    cases hroute : edit.route? with
    | none =>
      have hnone : Edit.lastRoute? [edit] id = none := by
        rw [Edit.lastRoute?, List.filterMap_cons_none hroute]
        rfl
      rw [routes_apply_of_route?_eq_none hroute, ih, hnone, Option.none_or]
    | some r =>
      cases edit with
      | route s =>
        have hadd : (Edit.lastRoute? [.route s] id) = if s.id = id then some s else none := by
          by_cases hid : s.id = id <;> simp [Edit.lastRoute?, Edit.route?, hid]
        rw [apply, Std.TreeMap.getElem?_insert, ih, hadd]
        by_cases hid : s.id = id
        · rw [if_pos hid, if_pos (Name.compare_eq_iff.mpr hid)]
          rfl
        · rw [if_neg hid, if_neg (mt Name.compare_eq_iff.mp hid)]
          rfl
      | call | close | walk => cases hroute

/-- A text names the route that was added last under it. -/
theorem routeNamed?_ofEdits (edits : List Edit) (route : String) :
    (ofEdits edits).routeNamed? route = (Name.ofText? route).bind (Edit.lastRoute? edits) := by
  rw [routeNamed?]
  congr 1
  exact funext fun id => getElem?_ofEdits edits id

/-- An edit after others records its call behind theirs. -/
theorem calls_apply_ofEdits (before : List Edit) (edit : Edit) :
    ((ofEdits before).apply edit).calls =
      (ofEdits before).calls ++ (Edit.recorded? before edit).toList := by
  cases edit with
  | route r =>
    show (ofEdits before).calls = (ofEdits before).calls ++ []
    rw [List.append_nil]
  | call station name calling window =>
    simp only [apply, addCall, routeNamed?_ofEdits, Edit.recorded?]
    cases Name.ofText? station with
    | none => exact (List.append_nil _).symm
    | some station =>
      cases (Name.ofText? name).bind (Edit.lastRoute? before) with
      | none => exact (List.append_nil _).symm
      | some r => rfl
  | close station dates =>
    show ((ofEdits before).addClosure station dates).calls = (ofEdits before).calls ++ []
    rw [addClosure, List.append_nil]
    split <;> rfl
  | walk first second =>
    show ((ofEdits before).addWalk first second).calls = (ofEdits before).calls ++ []
    rw [addWalk, List.append_nil]
    split <;> rfl

theorem calls_foldl_apply (before edits : List Edit) :
    (edits.foldl apply (ofEdits before)).calls =
      (ofEdits before).calls ++ Edit.recordedAfter before edits := by
  induction edits generalizing before with
  | nil => exact (List.append_nil _).symm
  | cons edit edits ih =>
    have hstep : (ofEdits before).apply edit = ofEdits (before ++ [edit]) := by
      rw [ofEdits_append, List.foldl_cons, List.foldl_nil]
    rw [List.foldl_cons, hstep, ih, ← hstep, calls_apply_ofEdits, Edit.recordedAfter,
      List.append_assoc]

/-- **The calls of a network are those that its edits record, in their order.** -/
theorem calls_ofEdits (edits : List Edit) : (ofEdits edits).calls = Edit.recorded edits :=
  calls_foldl_apply [] edits

theorem mem_calls_ofEdits_iff {edits : List Edit} {c : Call} :
    c ∈ (ofEdits edits).calls ↔ Edit.Records edits c := by
  rw [calls_ofEdits, Edit.mem_recorded_iff]

end Network
end TransitChanges
