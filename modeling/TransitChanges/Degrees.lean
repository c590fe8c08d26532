import TransitChanges.SharedDates

/-!
# How many changes separate two routes

The degree of a pair of routes is the length of the shortest chain of changes from the first to the
second.  It is recorded in one bit matrix per degree, from 1 to `maxDegree`.

A *direct change* leads from a route that sets down at an interchange to another that picks up
there, if both could run on one date.  Degree 1 is the direct changes; the next degree is reached
from the last by one more direct change, less what was reached before, and only for pairs that
could run on one date.  The rounds end early when every pair is reached or when a round adds
nothing, since no later round could add anything.

* `length_levels`: there is one matrix per degree.
* `degreeOf_self`: no change separates a route from itself.
-/

namespace TransitChanges

open Bits

/-- The largest degree that is computed. -/
def maxDegree : Nat := 5

/-- A row of one degree, as it is stored; `level` counts the degrees from 0. -/
structure DegreeRecord where
  level : Nat
  route : Nat
  reached : List Nat
  deriving DecidableEq

/-- The file that degrees are stored in. -/
def DegreeRecord.file : String := "costs_per_degree.json"

/-- A direct change is possible at an interchange between two routes of different names that could
run on one date. -/
def Interchange.joins (dropoff pickup : Route) : Bool :=
  dropoff.id ≠ pickup.id && pickup.sharesDateWith dropoff

namespace Numbering

variable (n : Numbering)

/-- Routes, each with its index. -/
def indexed (routes : List Route) : List (Route × Except Fault Nat) :=
  routes.map fun route => (route, n.indexOf route.id)

/-- The indexes of the routes that one can change to from a route that sets down. -/
def targetsOf (dropoff : Route) : List (Route × Except Fault Nat) → Except Fault (List Nat)
  | [] => .ok []
  | (pickup, index) :: pickups =>
    if Interchange.joins dropoff pickup then do
      let index ← index
      let rest ← targetsOf dropoff pickups
      return index :: rest
    else targetsOf dropoff pickups

/-- The direct changes from the routes of a list to those of another.  A route that has no index is
a fault where a change to it is possible. -/
def changesAmong (pickups : List (Route × Except Fault Nat)) :
    List Route → Except Fault (List (Nat × Nat))
  | [] => .ok []
  | dropoff :: dropoffs => do
    let index ← n.indexOf dropoff.id
    let targets ← targetsOf dropoff pickups
    let rest ← changesAmong pickups dropoffs
    return targets.map (fun target => (index, target)) ++ rest

/-- The direct changes at one interchange, in the order in which they are met. -/
def changesAt (interchange : Interchange) : Except Fault (List (Nat × Nat)) :=
  n.changesAmong (n.indexed interchange.pickups) interchange.dropoffs

/-- The direct changes at all interchanges, in the order in which they are met. -/
def directChanges : List Interchange → Except Fault (List (Nat × Nat))
  | [] => .ok []
  | interchange :: interchanges => do
    let here ← n.changesAt interchange
    let rest ← directChanges interchanges
    return here ++ rest

end Numbering

/-- One matrix of pairs of routes for each degree. -/
structure Degrees where
  numbering : Numbering
  levels : List BitMatrix
  length_levels : levels.length = maxDegree

namespace Degrees

/-! ## The rounds -/

/-- The routes reached from a route by one more direct change, apart from those reached before. -/
def nextRow (shared direct last reached : BitMatrix) (route : Nat) : Bitmap :=
  let onward := (last.row route).toList.foldl (fun row via => row.or (direct.row via))
    (Bitmap.empty direct.size)
  (onward.and (shared.row route)).andNot (reached.row route)

/-- The pairs of the next degree. -/
def next (shared direct last reached : BitMatrix) : BitMatrix :=
  .ofRows direct.size (nextRow shared direct last reached)

/-- The pairs of either matrix. -/
def union (a b : BitMatrix) : BitMatrix :=
  .ofRows a.size fun route => (a.row route).or (b.row route)

/-- A number of rounds after the last, given what is reached so far and how many pairs that is.
A round that cannot or does not add anything ends them. -/
def rounds (shared direct : BitMatrix) :
    (rounds : Nat) → (last reached : BitMatrix) → (total : Nat) → List BitMatrix
  | 0, _, _, _ => []
  | k + 1, last, reached, total =>
    let added := next shared direct last reached
    if direct.size * (direct.size - 1) ≤ total ∨ added.count = 0 then
      List.replicate (k + 1) (BitMatrix.empty direct.size)
    else
      added :: rounds shared direct k added (union reached added) (total + added.count)

theorem length_rounds (shared direct : BitMatrix) (k : Nat) (last reached : BitMatrix)
    (total : Nat) : (rounds shared direct k last reached total).length = k := by
  induction k generalizing last reached total with
  | zero => rfl
  | succ k ih =>
    unfold rounds
    dsimp only
    split
    · exact List.length_replicate
    · rw [List.length_cons, ih]

/-- The degrees that follow from the direct changes. -/
def ofDirect (numbering : Numbering) (shared direct : BitMatrix) : Degrees where
  numbering
  levels := direct :: rounds shared direct (maxDegree - 1) direct
    (union (.identity direct.size) direct) direct.count
  length_levels := by
    rw [List.length_cons, length_rounds]
    rfl

/-- The degrees of the numbered routes, from the interchanges where one can change. -/
def build (numbering : Numbering) (shared : BitMatrix) (interchanges : List Interchange) :
    Except Fault Degrees := do
  let changes ← numbering.directChanges interchanges
  let direct := BitMatrix.ofPositions numbering.size
    (changes.filter fun (i, j) => shared.get i j)
  return ofDirect numbering shared direct

/-! ## Records -/

/-- Whether a record fits a number of routes. -/
def fits (size : Nat) (r : DegreeRecord) : Bool :=
  r.level < maxDegree && r.route < size && r.reached.all (· < size)

/-- The matrices after a record, whose row takes the place of any other. -/
def store (size : Nat) (levels : List BitMatrix) (r : DegreeRecord) : List BitMatrix :=
  levels.modify r.level fun m => m.modifyRow r.route fun _ => .ofList size r.reached

/-- The matrices that records tell. -/
def storeAll (size : Nat) : List BitMatrix → List DegreeRecord → Except Fault (List BitMatrix)
  | levels, [] => .ok levels
  | levels, r :: records =>
    if fits size r then storeAll size (store size levels r) records
    else .error (.cache (.stale DegreeRecord.file (.rowOutside r.level r.route size)))

theorem length_storeAll {size : Nat} {levels result : List BitMatrix}
    {records : List DegreeRecord} (h : storeAll size levels records = .ok result) :
    result.length = levels.length := by
  induction records generalizing levels with
  | nil =>
    injection h with h
    rw [h]
  | cons r records ih =>
    unfold storeAll at h
    split at h
    · rw [ih h, store, List.length_modify]
    · cases h

/-- The degrees that records tell, if all of them fit. -/
def ofRecords (numbering : Numbering) (records : List DegreeRecord) : Except Fault Degrees :=
  match h : storeAll numbering.size
      (List.replicate maxDegree (BitMatrix.empty numbering.size)) records with
  | .ok levels => .ok ⟨numbering, levels, by rw [length_storeAll h, List.length_replicate]⟩
  | .error fault => .error fault

variable (t : Degrees)

/-- The pairs of one degree, counted from 1. -/
def level (degree : Nat) : BitMatrix :=
  match t.levels[degree - 1]? with
  | some m => m
  | none => .empty t.numbering.size

/-- The records of the degrees: the rows that hold something, degree by degree. -/
def records : List DegreeRecord :=
  t.levels.zipIdx.flatMap fun (m, level) =>
    (List.range m.size).filterMap fun route =>
      if (m.row route).isEmpty then none else some ⟨level, route, (m.row route).toList⟩

/-! ## Questions -/

/-- The number of routes. -/
def size : Nat :=
  t.numbering.size

/-- The degrees there are. -/
def all : List Nat :=
  List.range' 1 maxDegree

/-- Whether a pair is recorded at a degree. -/
def isAt (degree : Nat) (pair : RoutePair) : Bool :=
  (t.level degree).get pair.first pair.second

/-- The least number of changes from the first route of a pair to the second, if that many changes
are computed. -/
def degreeOf (pair : RoutePair) : Option Nat :=
  if pair.isSame then some 0 else all.find? fun degree => t.isAt degree pair

/-- Every degree at which a pair of different routes is recorded. -/
def allDegrees (pair : RoutePair) : Except Fault (List Nat) :=
  if pair.isSame then do
    let route ← t.numbering.routeAt pair.first
    .error (.sameRoute route.id)
  else .ok (all.filter fun degree => t.isAt degree pair)

/-- The least number of changes between two routes given by name. -/
def degreeBetween (first second : RouteId) : Except Fault (Option Nat) := do
  let pair ← t.numbering.pairOf first second
  return t.degreeOf pair

/-- The pairs of a degree, if there is such a degree. -/
def levelAt (degree : Nat) : Except Fault BitMatrix :=
  if 1 ≤ degree ∧ degree ≤ maxDegree then .ok (t.level degree)
  else .error (.degreeOutside degree maxDegree)

/-- The routes that are at most some number of changes away from a route. -/
def reachedBy (route upTo : Nat) : Bitmap :=
  (t.levels.take upTo).foldl (fun row m => row.or (m.row route)) (Bitmap.empty t.size)

/-- `reachedBy`, if the tables have a row for the route. -/
def reachedBy? (route upTo : Nat) : Option Bitmap :=
  if route < t.size ∨ upTo = 0 then some (t.reachedBy route upTo) else none

/-- The routes that run on a date in one of the modes. -/
def offered (date : Calendar.Date) (modes : ModeSet) : Bitmap :=
  .ofPred t.size fun i =>
    match t.numbering.routes[i]? with
    | some route => route.isOffered date modes
    | none => false

/-- The pairs of routes that both run on a date in one of the modes. -/
def gate (date : Calendar.Date) (modes : ModeSet) : BitMatrix :=
  let offered := t.offered date modes
  .ofRows t.size fun i => if offered.get i then offered else .empty t.size

/-- The number of recorded pairs, over all degrees. -/
def count : Nat :=
  t.levels.foldr (fun m total => m.count + total) 0

/-! ## Laws -/

/-- No change separates a route from itself. -/
@[simp] theorem degreeOf_self (i : Nat) : t.degreeOf ⟨i, i⟩ = some 0 := by
  simp [degreeOf, RoutePair.isSame]

end Degrees
end TransitChanges
