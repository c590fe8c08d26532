import TransitChanges.Network

/-!
# Putting a network together

A network is written down as a list of edits, each adding one thing.  Stations and routes are named
by plain texts there, and an edit that names an empty text, or a route that was not added before it,
adds nothing.  A route may be added again under its name: the network then holds the new one, while
the calls recorded before keep the one they were recorded with.

* `ofEdits_append`: edits are applied one after the other.
-/

namespace TransitChanges

open Calendar Clock

/-- One addition to a network. -/
inductive Edit where
  /-- A route, in place of any other of its name. -/
  | route (route : Route)
  /-- A route calls at a station within a window of the day. -/
  | call (station route : String) (calling : Calling) (window : Window)
  /-- A station is closed on some dates. -/
  | close (station : String) (dates : DateRange)
  /-- One can walk between two stations, either way. -/
  | walk (first second : String)

namespace Edit

/-- A route picks up and sets down at a station all day. -/
def stop (station route : String) : Edit :=
  .call station route .both .allDay

/-- A route starts at a station. -/
def pickupOnly (station route : String) : Edit :=
  .call station route .pickupOnly .allDay

/-- A route ends at a station. -/
def dropoffOnly (station route : String) : Edit :=
  .call station route .dropoffOnly .allDay

end Edit

namespace Network

/-- The route of the network that a text names. -/
def routeNamed? (net : Network) (route : String) : Option Route :=
  (Name.ofText? route).bind fun (id : RouteId) => net.routes[id]?

/-- Add a call, if both names are known. -/
def addCall (net : Network) (station route : String) (calling : Calling) (window : Window) :
    Network :=
  match Name.ofText? station, net.routeNamed? route with
  | some station, some route =>
    { net with calls := net.calls ++ [⟨station, route, calling, window⟩] }
  | _, _ => net

/-- Close a station, if the name is one. -/
def addClosure (net : Network) (station : String) (dates : DateRange) : Network :=
  match Name.ofText? station with
  | some station => { net with closures := net.closures ++ [(station, dates)] }
  | none => net

/-- Let one walk between two stations, if both names are names. -/
def addWalk (net : Network) (first second : String) : Network :=
  match Name.ofText? first, Name.ofText? second with
  | some a, some b => { net with walks := net.walks ++ [(a, b), (b, a)] }
  | _, _ => net

/-- The network after an edit. -/
def apply (net : Network) : Edit → Network
  | .route route => { net with routes := net.routes.insert route.id route }
  | .call station route calling window => net.addCall station route calling window
  | .close station dates => net.addClosure station dates
  | .walk first second => net.addWalk first second

/-- The network that a list of edits puts together. -/
def ofEdits (edits : List Edit) : Network :=
  edits.foldl apply empty

@[simp] theorem ofEdits_nil : ofEdits [] = empty := rfl

/-- Edits are applied one after the other. -/
theorem ofEdits_append (edits more : List Edit) :
    ofEdits (edits ++ more) = more.foldl apply (ofEdits edits) :=
  List.foldl_append

end Network
end TransitChanges
