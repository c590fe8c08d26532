import TransitChanges.ChangeStations

/-!
# By way of which routes one gets there

A pair of routes at degree `d`, at least 2, is reached by way of the routes at degree `d - 1` from
its first that have a direct change to its second.  Recording these routes for every such pair is
what lets a degree be taken apart into the interchanges behind it.

* `get_between`: the routes found by whole rows are those that the rule asks for.
* `fits_iff`: the records that are accepted.
-/

namespace TransitChanges

open Bits

/-- A pair of routes at a degree. -/
structure Connection where
  degree : Nat
  pair : RoutePair
  deriving DecidableEq

namespace Connection

instance : Ord Connection :=
  ⟨compareLex (compareOn degree) (compareOn pair)⟩

instance : Std.TransOrd Connection :=
  inferInstanceAs (Std.TransCmp (compareLex (compareOn degree) (compareOn pair)))

instance : Std.LawfulEqOrd Connection where
  eq_of_compare {a b} h := by
    obtain ⟨h₁, h₂⟩ := Ordering.then_eq_eq.mp h
    have e₁ : a.degree = b.degree := Std.LawfulEqOrd.eq_of_compare h₁
    have e₂ : a.pair = b.pair := Std.LawfulEqOrd.eq_of_compare h₂
    cases a; cases b; cases e₁; cases e₂; rfl

end Connection

/-- The intermediate routes of a connection, as they are stored. -/
structure ViaRecord where
  degree : Nat
  first : Nat
  second : Nat
  vias : List Nat
  deriving DecidableEq

/-- The file that intermediate routes are stored in. -/
def ViaRecord.file : String := "route_interconnects.json"

/-- The intermediate routes of the connections of two changes or more. -/
structure Vias where
  size : Nat
  routes : Std.TreeMap Connection Bitmap

namespace Vias

/-- The degrees with intermediate routes. -/
def degrees : List Nat :=
  List.range' 2 (maxDegree - 1)

/-- Whether a connection leads by way of a route: that route is one degree nearer, is left by a
direct change, and could run on one date with either end. -/
def leadsBy (shared : BitMatrix) (t : Degrees) (c : Connection) (via : Nat) : Bool :=
  (t.level (c.degree - 1)).get c.pair.first via && shared.get c.pair.first via &&
    (t.level 1).get via c.pair.second && shared.get via c.pair.second

/-- The routes that are one degree nearer than a degree, in the row of the route one comes from. -/
def nearer (shared : BitMatrix) (t : Degrees) (degree : Nat) : BitMatrix :=
  (t.level (degree - 1)).inter shared

/-- The routes that are left by a direct change, in the row of the route one changes to. -/
def origins (shared : BitMatrix) (t : Degrees) : BitMatrix :=
  ((t.level 1).inter shared).transpose

/-- The routes by way of which a pair is reached: they are nearer to its first route, and from them
one can change to its second. -/
def between (nearer origins : BitMatrix) (pair : RoutePair) : Bitmap :=
  (nearer.row pair.first).and (origins.row pair.second)

/-- The routes between a pair are those that the connection leads by way of. -/
theorem get_between {shared : BitMatrix} {t : Degrees} {c : Connection}
    (h : c.pair.second < (t.level 1).size) (via : Nat) :
    (between (nearer shared t c.degree) (origins shared t) c.pair).get via =
      leadsBy shared t c via := by
  rw [between, Bitmap.get_and, ← BitMatrix.get_eq_row, ← BitMatrix.get_eq_row, nearer, origins,
    BitMatrix.get_inter, BitMatrix.get_transpose (show _ < ((t.level 1).inter shared).size from h),
    BitMatrix.get_inter, leadsBy, Bool.and_assoc, Bool.and_assoc, Bool.and_assoc]

/-- The intermediate routes of the connections of one degree that have any. -/
def entriesAt (shared origins : BitMatrix) (t : Degrees) (degree : Nat) :
    List (Connection × Bitmap) :=
  let nearer := nearer shared t degree
  (t.level degree).positions.filterMap fun (i, j) =>
    let vias := between nearer origins ⟨i, j⟩
    if vias.isEmpty then none else some (⟨degree, i, j⟩, vias)

/-- The intermediate routes behind recorded degrees. -/
def build (shared : BitMatrix) (t : Degrees) : Vias :=
  let origins := origins shared t
  ⟨t.size, Std.TreeMap.ofList (degrees.flatMap (entriesAt shared origins t))⟩

/-- Whether a record fits a number of routes. -/
def fits (size : Nat) (r : ViaRecord) : Bool :=
  2 ≤ r.degree && r.degree ≤ maxDegree && r.first < size && r.second < size &&
    r.vias.all (· < size)

/-- The map after the records; the last record of a connection counts. -/
def storeAll (size : Nat) (routes : Std.TreeMap Connection Bitmap) :
    List ViaRecord → Except Fault (Std.TreeMap Connection Bitmap)
  | [] => .ok routes
  | r :: records =>
    if fits size r then
      storeAll size (routes.insert ⟨r.degree, r.first, r.second⟩ (.ofList size r.vias)) records
    else .error (.cache (.stale ViaRecord.file (.viasOutside r.degree r.first r.second size)))

/-- The intermediate routes that records tell, if all of them fit. -/
def ofRecords (size : Nat) (records : List ViaRecord) : Except Fault Vias := do
  let routes ← storeAll size ∅ records
  return ⟨size, routes⟩

variable (v : Vias)

/-- The records, in the order of degree, first and second route. -/
def records : List ViaRecord :=
  v.routes.toList.map fun (c, vias) => ⟨c.degree, c.pair.first, c.pair.second, vias.toList⟩

/-- The number of connections of a degree that are recorded. -/
def countAt (degree : Nat) : Nat :=
  v.routes.keys.countP fun c => c.degree = degree

/-- The intermediate routes of a connection, for which the numbering names the routes in case there
are none.  No connection of one change has any. -/
def behind (n : Numbering) (c : Connection) : Except Fault Bitmap :=
  if 2 ≤ c.degree ∧ c.degree ≤ maxDegree then
    match v.routes[c]? with
    | some vias => .ok vias
    | none => do
      let (first, second) ← n.routesAt c.pair
      .error (.viasMissing c.degree first.id second.id)
  else .error (.degreeOutside c.degree maxDegree)

/-- A connection taken apart in every way: the pair to an intermediate route and the pair from
there, by name. -/
def splits (n : Numbering) (c : Connection) :
    Except Fault (List ((RouteId × RouteId) × (RouteId × RouteId))) := do
  let first ← n.routeAt c.pair.first
  let second ← n.routeAt c.pair.second
  let vias ← v.behind n c
  vias.toList.mapM fun index => do
    let via ← n.routeAt index
    return ((first.id, via.id), (via.id, second.id))

theorem fits_iff {size : Nat} {r : ViaRecord} :
    fits size r = true ↔ 2 ≤ r.degree ∧ r.degree ≤ maxDegree ∧ r.first < size ∧
      r.second < size ∧ ∀ via ∈ r.vias, via < size := by
  simp only [fits, Bool.and_eq_true, decide_eq_true_eq, List.all_eq_true, and_assoc]

end Vias
end TransitChanges
