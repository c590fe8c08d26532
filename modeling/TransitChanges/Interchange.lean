import TransitChanges.Route
import Std.Data.TreeSet

/-!
# Stations where one can change

An interchange holds the routes that set passengers down and, apart from them, the routes that pick
passengers up: one changes from a route of the first kind to a route of the second.  The modes of
an interchange are those of all its routes, and an interchange is known by its station.

Places of a query are sets of stations, such as the platforms of one stop, kept in the order of
their names.

* `serves_iff`: the modes of an interchange.
-/

namespace TransitChanges

/-- A station with the routes that set down and pick up there. -/
structure Interchange where
  station : StationId
  dropoffs : List Route
  pickups : List Route
  deriving DecidableEq

namespace Interchange

/-- The modes of the routes that call at the station. -/
def modes (i : Interchange) : ModeSet :=
  ModeSet.ofList ((i.dropoffs ++ i.pickups).map Route.mode)

/-- Whether a route of the mode calls at the station. -/
def serves (i : Interchange) (mode : Mode) : Bool :=
  i.modes.contains mode

/-- Whether a route of one of the modes calls at the station. -/
def servesAny (i : Interchange) (modes : ModeSet) : Bool :=
  i.modes.intersects modes

/-- The name of the station in its role. -/
def text (i : Interchange) : String :=
  "Interchange(" ++ i.station.text ++ ")"

/-- The modes of an interchange. -/
theorem serves_iff {i : Interchange} {mode : Mode} :
    i.serves mode = true ↔ ∃ r, (r ∈ i.dropoffs ∨ r ∈ i.pickups) ∧ r.mode = mode := by
  simp [serves, modes, ModeSet.ofList, or_and_right, exists_or]

end Interchange

/-- A set of stations that count as one place. -/
abbrev StationSet := Std.TreeSet StationId

namespace StationSet

/-- The set of the stations of a list. -/
def ofList (stations : List StationId) : StationSet :=
  Std.TreeSet.ofList stations

/-- The names of the stations in order, in brackets. -/
def text (s : StationSet) : String :=
  "[" ++ String.intercalate "," (s.toList.map Name.text) ++ "]"

end StationSet
end TransitChanges
