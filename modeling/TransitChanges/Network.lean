import TransitChanges.Service

/-!
# A timetable in memory

A network holds routes by name, the calls of routes at stations in the order in which they were
recorded, closures, and pairs of stations between which one can walk.

A call keeps the route as it was when the call was recorded.  A station is an interchange if calls
of two different routes are recorded there.  Which routes pick up or set down at a station does not
depend on closures; whether the station is available does.

* `interchangeOf_station`: an interchange is that of the station asked about.
-/

namespace TransitChanges

open Calendar Clock

/-- What a route does at a station. -/
inductive Calling where
  | both
  | pickupOnly
  | dropoffOnly
  deriving DecidableEq

namespace Calling

/-- Whether passengers can get on. -/
def picksUp : Calling → Bool
  | both => true
  | pickupOnly => true
  | dropoffOnly => false

/-- Whether passengers can get off. -/
def setsDown : Calling → Bool
  | both => true
  | pickupOnly => false
  | dropoffOnly => true

end Calling

/-- A route calling at a station within a window of the day. -/
structure Call where
  station : StationId
  route : Route
  calling : Calling
  window : Window
  deriving DecidableEq

/-- Whether a call is made in the scope of a query. -/
def Call.isMade (c : Call) (scope : Scope) : Bool :=
  c.window.overlaps scope.window && scope.modes.contains c.route.mode && c.route.runsOn scope.date

/-- A timetable held in memory. -/
structure Network where
  routes : Std.TreeMap RouteId Route
  calls : List Call
  closures : List (StationId × DateRange)
  walks : List (StationId × StationId)

/-- Drop the routes at the head of a list that have a given name, and after each route that stays
those that repeat its name. -/
def Route.dropRepeatsOf (id : RouteId) : List Route → List Route
  | [] => []
  | r :: rest => if r.id = id then dropRepeatsOf id rest else r :: dropRepeatsOf r.id rest

/-- Drop from a list each route that has the name of the one before it. -/
def Route.dropRepeats : List Route → List Route
  | [] => []
  | r :: rest => r :: dropRepeatsOf r.id rest

/-- The routes in the order of their names, of routes with one name the first. -/
def Route.sortedOnce (routes : List Route) : List Route :=
  dropRepeats (routes.mergeSort fun r s => r.id.le s.id)

namespace Network

/-- The network that holds nothing. -/
def empty : Network := ⟨∅, [], [], []⟩

variable (net : Network)

/-- The calls at a station, in the order of recording. -/
def callsAt (station : StationId) : List Call :=
  net.calls.filter fun c => c.station = station

/-- The stations with a call, in order. -/
def stations : List StationId :=
  (StationSet.ofList (net.calls.map Call.station)).toList

/-- The interchange that calls make of a station: there is one if two of them are calls of
different routes. -/
def interchangeOf (station : StationId) : List Call → Option Interchange
  | [] => none
  | c :: calls =>
    if calls.any fun d => d.route.id ≠ c.route.id then
      some
        { station
          dropoffs := ((c :: calls).filter fun d => d.calling.setsDown).map Call.route
          pickups := ((c :: calls).filter fun d => d.calling.picksUp).map Call.route }
    else none

/-- The interchanges of the network, in the order of their stations. -/
def interchanges : List Interchange :=
  net.stations.filterMap fun station => interchangeOf station (net.callsAt station)

/-- The routes with a wanted call at a station in the scope of a query, in the order of their names;
of several routes with one name the one whose call was recorded first. -/
def routesAt (wanted : Calling → Bool) (station : StationId) (scope : Scope) : List Route :=
  Route.sortedOnce <|
    ((net.callsAt station).filter fun c => wanted c.calling && c.isMade scope).map Call.route

/-- Whether a station is closed on a date. -/
def isClosed (station : StationId) (date : Date) : Bool :=
  net.closures.any fun (closed, dates) => closed = station && dates.contains date

/-- Whether a station is open on the date and any route calls there in the scope. -/
def isAvailable (station : StationId) (scope : Scope) : Bool :=
  !net.isClosed station scope.date && !(net.routesAt (fun _ => true) station scope).isEmpty

/-- Whether one can walk from a station to another. -/
def areNeighbours (first second : StationId) : Bool :=
  net.walks.contains (first, second)

/-- The live answers of the network. -/
def service : Service where
  pickups := net.routesAt Calling.picksUp
  dropoffs := net.routesAt Calling.setsDown
  isAvailable interchange scope := net.isAvailable interchange.station scope
  isClosed := net.isClosed
  areNeighbours := net.areNeighbours

/-- The routes of the network, in the order of their names. -/
def source : RouteSource where
  routes := net.routes.values
  count := net.routes.size
  find? id := net.routes[id]?

/-- The network as a timetable to ask. -/
def feed : Feed where
  source := net.source
  interchanges := net.interchanges
  service := net.service

/-! ## Laws -/

/-- An interchange is that of the station asked about. -/
theorem interchangeOf_station {station : StationId} {calls : List Call} {i : Interchange}
    (h : interchangeOf station calls = some i) : i.station = station := by
  unfold interchangeOf at h
  split at h
  · cases h
  · split at h
    · rw [← Option.some.inj h]
    · cases h

end Network
end TransitChanges
