import TransitChanges.Connections
import TransitChanges.Operating

/-!
# The fewest changes between places

A planner answers questions about a date, a window and a set of modes from the tables and the live
answers of a timetable.  The tables say by how many changes two routes are connected and where one
could change; the pair counts as connected if some chain of interchanges operates.

The fewest changes between two places is the least number over the routes that pick up at the one
and those that set down at the other; it is 0 between neighbours.  A place that is closed altogether
costs one change more, for reaching or leaving it by other means.

Stations are asked about within one query only (`Asking`), so no answer outlives its query.

* `changesFor_self`: no change is needed on one route.
-/

namespace TransitChanges

open Bits

/-- A step of a query that may refuse and that remembers which stations operate. -/
abbrev Asking := ExceptT Fault (StateM Memory)

namespace Asking

/-- A step that asks no station. -/
def ofExcept {α : Type} : Except Fault α → Asking α
  | .ok a => pure a
  | .error fault => throw fault

/-- The outcome of a query, which begins knowing nothing. -/
def result {α : Type} (query : Asking α) : Except Fault α :=
  (query.run .empty).1

end Asking

/-- The tables and the timetable that questions are answered from. -/
structure Planner where
  tables : Connections
  service : Service

/-- What the questions of one query share: its scope and the pairs of routes it may use. -/
structure Enquiry where
  planner : Planner
  scope : Scope
  gate : BitMatrix

namespace Enquiry

variable (e : Enquiry)

/-- The index of a route. -/
def indexOf (route : RouteId) : Asking Nat :=
  .ofExcept (e.planner.tables.numbering.indexOf route)

/-- The changes needed between two routes: those that the tables record, if some way operates. -/
def changesFor (pair : RoutePair) : Asking Changes :=
  if pair.isSame then return .exactly 0
  else do
    let ways ← Asking.ofExcept (e.planner.tables.waysFor e.gate e.scope.modes pair)
    if ← ways.askOpen (fun i => ExceptT.lift (e.planner.service.operates e.scope i)) then
      return ways.depth
    else return .unreachable

/-- The fewest changes from a route to any of some routes and the best answer so far.  Nothing more
is looked at once no change is needed. -/
def fewestFrom (start : Nat) (best : Changes) : List Route → Asking Changes
  | [] => return best
  | destination :: destinations => do
    let index ← e.indexOf destination.id
    let changes ← e.changesFor ⟨start, index⟩
    let best := best.fewer changes
    if best = .exactly 0 then return best else fewestFrom start best destinations

/-- The fewest changes from any of some routes to any of others and the best answer so far. -/
def fewestBetween (destinations : List Route) (best : Changes) : List Route → Asking Changes
  | [] => return best
  | start :: starts => do
    let index ← e.indexOf start.id
    let best ← e.fewestFrom index best destinations
    if best = .exactly 0 then return best else fewestBetween destinations best starts

/-- The fewest changes from an indexed route to any of some indexed routes. -/
def fewestTo (start : Nat) (best : Changes) : List Nat → Asking Changes
  | [] => return best
  | destination :: destinations => do
    let changes ← e.changesFor ⟨start, destination⟩
    fewestTo start (best.fewer changes) destinations

/-- No change is needed on one route. -/
@[simp] theorem changesFor_self (i : Nat) : e.changesFor ⟨i, i⟩ = pure (.exactly 0) := by
  rw [changesFor, if_pos (by simp [RoutePair.isSame])]

end Enquiry

namespace Planner

variable (p : Planner)

/-- The enquiry in a scope. -/
def enquiry (scope : Scope) : Enquiry :=
  ⟨p, scope, p.tables.degrees.gate scope.date scope.modes⟩

/-- The fewest changes between two routes given by name. -/
def changesBetweenRoutes (first second : RouteId) (scope : Scope) : Except Fault Changes := do
  let pair ← p.tables.numbering.pairOf first second
  if pair.isSame then return .exactly 0
  else ((p.enquiry scope).changesFor pair).result

/-- The fewest changes from any station of one place to any of another. -/
def changesBetween (starts destinations : StationSet) (scope : Scope) : Except Fault Changes :=
  if p.service.anyNeighbours starts destinations then .ok (.exactly 0)
  else
    let pickups := p.service.pickupsAt starts scope
    let dropoffs := p.service.dropoffsAt destinations scope
    if pickups = [] ∨ dropoffs = [] then .ok .unreachable
    else do
      let fewest ← ((p.enquiry scope).fewestBetween dropoffs .unreachable pickups).result
      let closedEnds := (p.service.allClosed starts scope.date).toNat +
        (p.service.allClosed destinations scope.date).toNat
      return fewest.plus closedEnds

/-- The number of recorded connections. -/
def size : Nat :=
  p.tables.degrees.count

end Planner
end TransitChanges
