import TransitChanges.Service
import Std.Data.TreeMap

/-!
# Numbering the routes

The tables speak of routes by index.  A numbering gives each route an index, in the order of the
names, so that two numberings of the same routes agree; it is kept as the routes in index order and
a map from names to indexes.

A numbering can be restored from records.  The records have to name as many routes as are served,
each of them still served, and give them the indexes from 0 on, each once; then every index has its
route.  Whether the restored routes carry the names that they were looked up by is a further test
(`isValid`), which also tells a numbering of distinct names from one with repeats.

* `routeAt_eq_ok_iff`: the indexes that have a route.
* `size_ofSorted`: a numbering has an index for every route it was made of.
-/

namespace TransitChanges

/-- The largest number of routes that are numbered. -/
def maxRoutes : Nat := 65535

/-- An ordered pair of route indexes. -/
structure RoutePair where
  first : Nat
  second : Nat
  deriving DecidableEq

namespace RoutePair

instance : Ord RoutePair :=
  ⟨compareLex (compareOn first) (compareOn second)⟩

instance : Std.TransOrd RoutePair :=
  inferInstanceAs (Std.TransCmp (compareLex (compareOn first) (compareOn second)))

instance : Std.LawfulEqOrd RoutePair where
  eq_of_compare {a b} h := by
    obtain ⟨h₁, h₂⟩ := Ordering.then_eq_eq.mp h
    have e₁ : a.first = b.first := Std.LawfulEqOrd.eq_of_compare h₁
    have e₂ : a.second = b.second := Std.LawfulEqOrd.eq_of_compare h₂
    cases a; cases b; cases e₁; cases e₂; rfl

/-- Whether both ends are the same route. -/
def isSame (p : RoutePair) : Bool :=
  p.first == p.second

/-- How a pair is shown. -/
def inspect (p : RoutePair) : String :=
  "RouteIndexPair(" ++ Text.numeral p.first ++ "," ++ Text.numeral p.second ++ ")"

end RoutePair

/-- The index of a route, as it is stored. -/
structure IndexRecord where
  index : Nat
  route : RouteId
  deriving DecidableEq

/-- The file that a numbering is stored in. -/
def IndexRecord.file : String := "route_index.json"

/-- Routes by index, and indexes by name. -/
structure Numbering where
  routes : Array Route
  indexes : Std.TreeMap RouteId Nat

namespace Numbering

/-- The indexes of names in a list, counted from `next`; of a repeated name the last. -/
def indexNames (next : Nat) (map : Std.TreeMap RouteId Nat) : List Route →
    Std.TreeMap RouteId Nat
  | [] => map
  | route :: routes => indexNames (next + 1) (map.insert route.id next) routes

/-- The numbering of routes in the order of a list. -/
def ofSorted (routes : List Route) : Numbering :=
  ⟨routes.toArray, indexNames 0 ∅ routes⟩

/-- The numbering of the routes of a source in the order of their names, unless there are too many.
Routes with one name stay in the order of the source. -/
def build (source : RouteSource) : Except Fault Numbering :=
  if source.routes.length ≤ maxRoutes then
    .ok (ofSorted (source.routes.mergeSort fun r s => r.id.le s.id))
  else .error (.tooManyRoutes source.routes.length maxRoutes)

/-- The refusal of stored indexes. -/
def stale (cause : StaleCause) : Fault :=
  .cache (.stale IndexRecord.file cause)

/-- Put the routes of records, one after the other, in the slots of their indexes. -/
def placeAll (source : RouteSource) (slots : Array (Option Route))
    (indexes : Std.TreeMap RouteId Nat) : List IndexRecord →
    Except Fault (Array (Option Route) × Std.TreeMap RouteId Nat)
  | [] => .ok (slots, indexes)
  | record :: records =>
    match source.find? record.route with
    | none => .error (stale (.routeGone record.route))
    | some route =>
      if slots[record.index]? = some none then
        placeAll source (slots.setIfInBounds record.index (some route))
          (indexes.insert record.route record.index) records
      else .error (stale (.indexUnusable record.index))

/-- The numbering that records tell. -/
def ofRecords (source : RouteSource) (records : List IndexRecord) : Except Fault Numbering :=
  if records.length = source.count then do
    let (slots, indexes) ← placeAll source (Array.replicate records.length none) ∅ records
    let routes := slots.filterMap id
    if routes.size = indexes.size then .ok ⟨routes, indexes⟩
    else .error (stale .routesRepeated)
  else .error (stale (.routeCount records.length source.count))

variable (n : Numbering)

/-- The number of indexes. -/
def size : Nat :=
  n.routes.size

/-- The records of the numbering, by index. -/
def records : List IndexRecord :=
  n.routes.toList.zipIdx.map fun (route, index) => ⟨index, route.id⟩

/-- Whether a route has an index. -/
def hasIndex (route : RouteId) : Bool :=
  n.indexes.contains route

/-- The index of a route. -/
def indexOf (route : RouteId) : Except Fault Nat :=
  match n.indexes[route]? with
  | some index => .ok index
  | none => .error (.routeNotIndexed route)

/-- The route with an index. -/
def routeAt (index : Nat) : Except Fault Route :=
  match n.routes[index]? with
  | some route => .ok route
  | none => .error (.indexOutside index n.size)

/-- The indexes of two routes; the first is looked up first. -/
def pairOf (first second : RouteId) : Except Fault RoutePair := do
  let first ← n.indexOf first
  let second ← n.indexOf second
  return ⟨first, second⟩

/-- The two routes of a pair; the first is looked up first. -/
def routesAt (pair : RoutePair) : Except Fault (Route × Route) := do
  let first ← n.routeAt pair.first
  let second ← n.routeAt pair.second
  return (first, second)

/-- The number of routes of a mode. -/
def countOf (mode : Mode) : Nat :=
  n.routes.toList.countP fun route => route.mode = mode

/-- Whether each index is the index of the name of its route, and no other name has one. -/
def isValid : Bool :=
  n.routes.size == n.indexes.size &&
    n.records.all fun record => n.indexes[record.route]? == some record.index

/-! ## Laws -/

/-- A numbering has an index for every route it was made of. -/
@[simp] theorem size_ofSorted (routes : List Route) : (ofSorted routes).size = routes.length :=
  rfl

/-- The indexes that have a route. -/
theorem routeAt_eq_ok_iff {n : Numbering} {index : Nat} {route : Route} :
    n.routeAt index = .ok route ↔ n.routes[index]? = some route := by
  unfold routeAt
  cases n.routes[index]? <;> simp

theorem indexOf_eq_ok_iff {n : Numbering} {route : RouteId} {index : Nat} :
    n.indexOf route = .ok index ↔ n.indexes[route]? = some index := by
  unfold indexOf
  cases n.indexes[route]? <;> simp

end Numbering
end TransitChanges
