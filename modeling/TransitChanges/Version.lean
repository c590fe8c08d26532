import TransitChanges.Fingerprint
import TransitChanges.Service

/-!
# The version of a timetable

The tables depend on the routes and on the interchanges of a timetable.  `Version` is what they are
recognised by: of every route its name, mode, dates and days, and of every interchange its station
and the names of the routes that set down and pick up there.  All of it is sorted, so the version
does not depend on the order in which a timetable lists things; repeats count.

In the cache a version stands as the fingerprint of its bytes.  Equal versions have equal
fingerprints.

* `length_text`: the text of a version has sixteen characters.
-/

namespace TransitChanges

open Calendar

/-- What is recorded of a route. -/
structure RouteVersion where
  id : RouteId
  mode : Mode
  dates : DateRange
  days : DaySet
  deriving DecidableEq

/-- What is recorded of an interchange. -/
structure InterchangeVersion where
  station : StationId
  dropoffs : List RouteId
  pickups : List RouteId
  deriving DecidableEq

/-- What the tables of a timetable are recognised by. -/
structure Version where
  routes : List RouteVersion
  interchanges : List InterchangeVersion
  deriving DecidableEq

namespace InterchangeVersion

/-- The order of lists of names: by the first name in which they differ, a list before those that
go on after it. -/
def namesLe : List RouteId → List RouteId → Bool
  | [], _ => true
  | _ :: _, [] => false
  | a :: as, b :: bs =>
    match compare a b with
    | .lt => true
    | .eq => namesLe as bs
    | .gt => false

/-- The order by station, then by the routes that set down, then by those that pick up. -/
def le (a b : InterchangeVersion) : Bool :=
  match compare a.station b.station with
  | .lt => true
  | .gt => false
  | .eq => if a.dropoffs = b.dropoffs then namesLe a.pickups b.pickups
    else namesLe a.dropoffs b.dropoffs

/-- The names of routes in order. -/
def sortedNames (routes : List Route) : List RouteId :=
  (routes.map Route.id).mergeSort Name.le

/-- What is recorded of an interchange. -/
def of (i : Interchange) : InterchangeVersion :=
  ⟨i.station, sortedNames i.dropoffs, sortedNames i.pickups⟩

end InterchangeVersion

namespace Version

/-- The version of the routes and interchanges of a timetable. -/
def of (routes : List Route) (interchanges : List Interchange) : Version where
  routes := (routes.mergeSort fun r s => r.id.le s.id).map fun r => ⟨r.id, r.mode, r.dates, r.days⟩
  interchanges := (interchanges.map InterchangeVersion.of).mergeSort InterchangeVersion.le

/-! ## Bytes -/

/-- The eight bytes of a number, lowest first. -/
def numberBytes (n : Nat) : List UInt8 :=
  (List.range 8).map fun i => UInt8.ofNat (n >>> (8 * i))

/-- The bytes of a name and an end mark, which no name contains. -/
def nameBytes {kind : NameKind} (name : Name kind) : List UInt8 :=
  name.text.toUTF8.toList ++ [0xff]

/-- The number of a date, counted from the first of the calendar. -/
def dateBytes (date : Date) : List UInt8 :=
  numberBytes (date.day - firstDay).toNat

/-- The bytes of a list of names. -/
def namesBytes (names : List RouteId) : List UInt8 :=
  numberBytes names.length ++ names.flatMap nameBytes

/-- The bytes of what is recorded of a route. -/
def routeBytes (r : RouteVersion) : List UInt8 :=
  nameBytes r.id ++ numberBytes r.mode.index ++ dateBytes r.dates.start ++
    dateBytes r.dates.finish ++ [UInt8.ofNat r.days.mask.toNat]

/-- The bytes of what is recorded of an interchange. -/
def interchangeBytes (i : InterchangeVersion) : List UInt8 :=
  nameBytes i.station ++ namesBytes i.dropoffs ++ namesBytes i.pickups

/-- The bytes of a version. -/
def bytes (v : Version) : List UInt8 :=
  numberBytes v.routes.length ++ v.routes.flatMap routeBytes ++
    numberBytes v.interchanges.length ++ v.interchanges.flatMap interchangeBytes

/-- The text that a version stands as in the cache. -/
def text (v : Version) : String :=
  String.ofList (Fingerprint.ofBytes v.bytes).hex

/-- The text of a version has sixteen characters. -/
theorem length_text (v : Version) : v.text.length = 16 := by
  rw [text, String.length_ofList, Fingerprint.length_hex]

end Version

/-- The version of a timetable. -/
def Feed.version (feed : Feed) : Version :=
  .of feed.source.routes feed.interchanges

end TransitChanges
