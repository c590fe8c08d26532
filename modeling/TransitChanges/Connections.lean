import TransitChanges.Vias
import TransitChanges.Ways

/-!
# The tables together

Degrees, the stations of direct changes and intermediate routes describe one set of connections.
Together they expand a pair of routes into the ways to change between them (`waysFor`): a direct
change into the stations where it can be made, and a longer connection, for each intermediate
route, into the ways to that route followed by the direct change from there.

A query uses only routes that run on its date in its modes.  They are given as a *gate*, the matrix
of the pairs that may be used.

Tables built together always expand.  Tables that were restored may contradict each other; then the
missing entry is reported.

* `waysFor_self`: there is no way to expand between a route and itself.
-/

namespace TransitChanges

open Bits

/-- The tables that describe which routes are connected and how. -/
structure Connections where
  degrees : Degrees
  stations : ChangeStations
  vias : Vias

namespace Connections

/-- The tables of the routes of a source and of some interchanges, all of them built. -/
def build (source : RouteSource) (interchanges : List Interchange) : Except Fault Connections := do
  let n ← Numbering.build source
  let stations ← ChangeStations.build n interchanges
  let degrees ← Degrees.build n n.sharedDates interchanges
  return ⟨degrees, stations, Vias.build n.sharedDates degrees⟩

variable (t : Connections)

/-- The numbering the tables are about. -/
def numbering : Numbering :=
  t.degrees.numbering

/-- The ways of a direct change. -/
def directWays (modes : ModeSet) (pair : RoutePair) : Except Fault (Ways Interchange) :=
  if t.stations.has pair then .ok (.ofStations (t.stations.servedBy pair modes))
  else do
    let (dropoff, pickup) ← t.numbering.routesAt pair
    .error (.stationMissing dropoff.id pickup.id)

/-- The ways by each of some intermediate routes, each the ways to the route followed by those from
it; a route that there is no way to is left out before the ways from it are looked at. -/
def waysBy (before after : Nat → Except Fault (Ways Interchange)) :
    List Nat → Except Fault (List (Ways Interchange))
  | [] => .ok []
  | via :: vias => do
    let first ← before via
    if first.isNoWay then waysBy before after vias
    else do
      let second ← after via
      let rest ← waysBy before after vias
      return .both first second :: rest

/-- The ways of a pair with one change more than a number. -/
def expand (gate : BitMatrix) (modes : ModeSet) :
    Nat → RoutePair → Except Fault (Ways Interchange)
  | 0, pair => t.directWays modes pair
  | further + 1, pair => do
    let vias ← t.vias.behind t.numbering ⟨further + 2, pair⟩
    let ways ← waysBy
      (fun via => expand gate modes further ⟨pair.first, via⟩)
      (fun via => t.directWays modes ⟨via, pair.second⟩)
      (vias.toList.filter fun via => gate.get pair.first via)
    return .ofWays ways

/-- The ways to change between two routes, of the number of changes that the tables record. -/
def waysFor (gate : BitMatrix) (modes : ModeSet) (pair : RoutePair) :
    Except Fault (Ways Interchange) :=
  match t.degrees.degreeOf pair with
  | some (further + 1) =>
    if gate.get pair.first pair.second then t.expand gate modes further pair else .ok .noWay
  | _ => .ok .noWay

/-- There is no way to expand between a route and itself. -/
@[simp] theorem waysFor_self (gate : BitMatrix) (modes : ModeSet) (i : Nat) :
    t.waysFor gate modes ⟨i, i⟩ = .ok .noWay := by
  rw [waysFor, Degrees.degreeOf_self]

end Connections
end TransitChanges
