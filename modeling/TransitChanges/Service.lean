import TransitChanges.Interchange

/-!
# What a timetable answers

The tables and the queries do not hold a timetable; they ask one.  `Feed` is all they ask for: the
routes, the stations where one can change, and live answers (`Service`) about stations on a date.
`Network` is a timetable held in memory; anything else that fills in these fields serves as well.

Questions about a set of stations follow from those about one station.  The routes at a set are
listed once each in the order of their names; where two stations of the set give different routes
one name, the route of the later station is listed.
-/

namespace TransitChanges

open Calendar Clock

/-- What a query is asked for: a date, a window of that day and the modes that may be used. -/
structure Scope where
  date : Date
  window : Window
  modes : ModeSet

/-- Live answers about stations. -/
structure Service where
  /-- The routes that pick passengers up at a station. -/
  pickups : StationId → Scope → List Route
  /-- The routes that set passengers down at a station. -/
  dropoffs : StationId → Scope → List Route
  /-- Whether any route calls at an interchange. -/
  isAvailable : Interchange → Scope → Bool
  /-- Whether a station is closed. -/
  isClosed : StationId → Date → Bool
  /-- Whether one can walk from a station to another. -/
  areNeighbours : StationId → StationId → Bool

/-- The routes there are.  The count and the look-up are asked for on their own, and a source may
answer them from elsewhere than from its list. -/
structure RouteSource where
  routes : List Route
  count : Nat
  find? : RouteId → Option Route

/-- A whole timetable, as the tables and the queries see it. -/
structure Feed where
  source : RouteSource
  interchanges : List Interchange
  service : Service

/-- The routes of a list by name; of routes with one name the last. -/
def Route.byName (routes : List Route) : Std.TreeMap RouteId Route :=
  routes.foldl (fun map route => map.insert route.id route) ∅

namespace Service

variable (service : Service)

/-- The routes that pick passengers up at any of the stations. -/
def pickupsAt (stations : StationSet) (scope : Scope) : List Route :=
  (Route.byName (stations.toList.flatMap fun station => service.pickups station scope)).values

/-- The routes that set passengers down at any of the stations. -/
def dropoffsAt (stations : StationSet) (scope : Scope) : List Route :=
  (Route.byName (stations.toList.flatMap fun station => service.dropoffs station scope)).values

/-- Whether there are stations and all of them are closed. -/
def allClosed (stations : StationSet) (date : Date) : Bool :=
  !stations.isEmpty && stations.toList.all fun station => service.isClosed station date

/-- Whether one can walk from any station of one set to any of the other. -/
def anyNeighbours (first second : StationSet) : Bool :=
  first.toList.any fun a => second.toList.any fun b => service.areNeighbours a b

end Service
end TransitChanges
