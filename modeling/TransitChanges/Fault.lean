import TransitChanges.Calendar.Date
import TransitChanges.Clock.Time
import TransitChanges.Identifier

/-!
# What can go wrong

Every refusal of the library is a value that tells its cause; `Fault.message` words them all.
Three groups matter to a caller:

* values that cannot be made (an empty name, a range that ends before it starts, …);
* tables that contradict each other or the routes they are asked about, which an ordinary query
  over tables built together never meets;
* trouble with the files the tables are kept in (`CacheFault`).

"Not connected" is no fault but an ordinary answer.
-/

namespace TransitChanges

open Calendar Clock Text

/-- Why stored records do not fit the routes they are loaded for. -/
inductive StaleCause where
  /-- The number of stored routes is not the number of routes served. -/
  | routeCount (stored served : Nat)
  /-- A stored route is no longer served. -/
  | routeGone (route : RouteId)
  /-- A stored index is too large or was taken before. -/
  | indexUnusable (index : Nat)
  /-- One route was stored under two indexes. -/
  | routesRepeated
  /-- The restored numbering is not the same in both directions. -/
  | notValid
  /-- A row of degrees does not fit the number of routes. -/
  | rowOutside (level route routes : Nat)
  /-- A record of intermediate routes does not fit the number of routes. -/
  | viasOutside (degree first second routes : Nat)
  deriving DecidableEq

/-- Trouble with a file of the cache. -/
inductive CacheFault where
  /-- A file could not be read, written or removed. -/
  | inaccessible (file : String)
  /-- The cache directory itself could not be read. -/
  | directoryInaccessible
  /-- The content of a file is not a list of records. -/
  | undecodable (file : String)
  /-- The records of a file do not fit the routes. -/
  | stale (file : String) (cause : StaleCause)
  deriving DecidableEq

/-- The causes of every refusal. -/
inductive Fault where
  | emptyRouteId
  | emptyStationId
  | datesReversed (start finish : Date)
  | noDays
  | daysUnknown (mask : Nat)
  | timesReversed (start finish : Time)
  | notATime (text : String)
  /-- A choice needs at least two stations. -/
  | tooFewStations (count : Nat)
  /-- A route has no index. -/
  | routeNotIndexed (route : RouteId)
  | indexOutside (index routes : Nat)
  | tooManyRoutes (count most : Nat)
  /-- Two different routes were needed. -/
  | sameRoute (route : RouteId)
  | degreeOutside (degree most : Nat)
  /-- A recorded connection has no intermediate route. -/
  | viasMissing (degree : Nat) (first second : RouteId)
  /-- A recorded connection of one change has no station. -/
  | stationMissing (dropoff pickup : RouteId)
  | cache (fault : CacheFault)
  deriving DecidableEq

namespace StaleCause

/-- The words for a cause. -/
def message : StaleCause → String
  | routeCount stored served =>
    "cached " ++ numeral stored ++ " routes but repository has " ++ numeral served
  | routeGone route => "route " ++ route.text ++ " is no longer present"
  | indexUnusable index => "index " ++ numeral index ++ " is out of range or repeated"
  | routesRepeated => "duplicate route ids in cache"
  | notValid => "index failed validation"
  | rowOutside level route routes =>
    "record for degree " ++ numeral level ++ " route " ++ numeral route ++ " is outside " ++
      numeral routes ++ " routes"
  | viasOutside degree first second routes =>
    "record for degree " ++ numeral degree ++ " routes " ++ numeral first ++ "->" ++
      numeral second ++ " is invalid for " ++ numeral routes ++ " routes"

end StaleCause

namespace Fault

/-- The words for a fault. -/
def message : Fault → String
  | emptyRouteId => "invalid route id: route id cannot be empty"
  | emptyStationId => "invalid station id: station id cannot be empty"
  | datesReversed start finish =>
    "date range ends (" ++ finish.text ++ ") before it starts (" ++ start.text ++ ")"
  | noDays => "days of week cannot be empty"
  | daysUnknown mask => "invalid days of week mask 0b" ++ String.ofList (binary 8 mask)
  | timesReversed start finish =>
    "time range ends (" ++ finish.text ++ ") before it starts (" ++ start.text ++ ")"
  | notATime text => "invalid time '" ++ text ++ "', expected HH:MM"
  | tooFewStations n => "any of interchanges needs at least two stations, got " ++ numeral n
  | routeNotIndexed route => "no index for route " ++ route.text
  | indexOutside index routes =>
    "route index " ++ numeral index ++ " out of range for " ++ numeral routes ++ " routes"
  | tooManyRoutes n most => numeral n ++ " routes exceed the maximum of " ++ numeral most
  | sameRoute route => "same route " ++ route.text ++ " given for both ends of a pair"
  | degreeOutside degree most =>
    "degree " ++ numeral degree ++ " out of range 1..=" ++ numeral most
  | viasMissing degree first second =>
    "no interconnect for " ++ first.text ++ " to " ++ second.text ++ " at degree " ++
      numeral degree
  | stationMissing dropoff pickup =>
    "no interchange from " ++ dropoff.text ++ " to " ++ pickup.text
  | cache (.inaccessible file) => "cache I/O error for " ++ file
  | cache .directoryInaccessible => "cache I/O error for the cache directory"
  | cache (.undecodable file) => "cache JSON error for " ++ file
  | cache (.stale file cause) => "could not load " ++ file ++ " from cache: " ++ cause.message

/-- Two steps give a value if the first gives one from which the second gives it. -/
theorem bind_eq_ok_iff {α β : Type} {x : Except Fault α} {f : α → Except Fault β} {b : β} :
    x >>= f = .ok b ↔ ∃ a, x = .ok a ∧ f a = .ok b := by
  cases x with
  | error fault => simp [bind, Except.bind]
  | ok a => simp [bind, Except.bind]

/-- The name of a route, or the refusal of an empty text. -/
def routeId (s : String) : Except Fault RouteId :=
  match Name.ofText? s with
  | some id => .ok id
  | none => .error .emptyRouteId

/-- The name of a station, or the refusal of an empty text. -/
def stationId (s : String) : Except Fault StationId :=
  match Name.ofText? s with
  | some id => .ok id
  | none => .error .emptyStationId

end Fault
end TransitChanges
