import TransitChanges.Bits.BitMatrix
import TransitChanges.Numbering

/-!
# Which routes could run on one date

Two routes can be joined by a change only if they could run on one date.  The matrix of all such
pairs is computed once for a numbering; a route always shares its dates with itself, even one that
never runs.  Many routes of a network run on the same dates, and those have the same row but for
the diagonal; so a row is found once for all of them.

* `sharingFrom_sharingRows`: the rows of some routes serve for all.
* `get_sharedDates`: the bits of the matrix.
-/

namespace TransitChanges

open Bits

namespace Numbering

variable (n : Numbering)

/-- Whether two indexed routes could run on one date. -/
def sharesDates (i j : Nat) : Bool :=
  match n.routes[i]?, n.routes[j]? with
  | some r, some s => i == j || r.sharesDateWith s
  | _, _ => false

/-- The indexes of the routes that could run on one date with a route. -/
def sharingWith (r : Route) : Bitmap :=
  .ofPred n.size fun j =>
    match n.routes[j]? with
    | some s => r.sharesDateWith s
    | none => false

/-- A route for each of the ways to run on dates, with the routes that share a date with it. -/
def sharingRows : List (Route × Bitmap) :=
  (n.routes.toList.eraseDupsBy Route.runsAlike).map fun r => (r, n.sharingWith r)

/-- The routes that share a date with a route, looked up among the rows of some routes. -/
def sharingFrom (rows : List (Route × Bitmap)) (r : Route) : Bitmap :=
  match rows.find? fun known => known.1.runsAlike r with
  | some known => known.2
  | none => n.sharingWith r

/-- The matrix of the pairs of routes that could run on one date. -/
def sharedDates : BitMatrix :=
  let rows := n.sharingRows
  .ofRows n.size fun i =>
    match n.routes[i]? with
    | some r => (n.sharingFrom rows r).insert i
    | none => .empty n.size

/-- Routes that run on the same dates share dates with the same routes. -/
theorem sharingWith_of_runsAlike {r s : Route} (h : r.runsAlike s = true) :
    n.sharingWith r = n.sharingWith s := by
  unfold sharingWith
  congr 1
  funext j
  split
  · exact Route.sharesDateWith_of_runsAlike h _
  · rfl

/-- The rows of some routes serve for all. -/
theorem sharingFrom_sharingRows (r : Route) :
    n.sharingFrom n.sharingRows r = n.sharingWith r := by
  unfold sharingFrom
  split
  · next known hknown =>
    obtain ⟨s, -, rfl⟩ := List.mem_map.mp (List.mem_of_find?_eq_some hknown)
    have halike := List.find?_some hknown
    exact n.sharingWith_of_runsAlike halike
  · rfl

/-- The bits of the matrix. -/
theorem get_sharedDates (i j : Nat) : n.sharedDates.get i j = n.sharesDates i j := by
  rw [sharedDates, BitMatrix.get_ofRows]
  cases hi : n.routes[i]? with
  | none => simp [sharesDates, hi]
  | some r =>
    have hlt : i < n.size := (Array.getElem?_eq_some_iff.mp hi).1
    have hsize : (n.sharingWith r).size = n.size := rfl
    dsimp only
    rw [sharingFrom_sharingRows, Bitmap.get_insert, hsize, sharingWith, Bitmap.get_ofPred,
      sharesDates, hi]
    cases hj : n.routes[j]? with
    | none =>
      have hne : i ≠ j := fun h => by rw [h, hj] at hi; cases hi
      simp [hne]
    | some s =>
      have hltj : j < n.size := (Array.getElem?_eq_some_iff.mp hj).1
      by_cases h : i = j
      · simp [h, hltj]
      · simp [h, beq_eq_false_iff_ne.mpr h, hlt, hltj]

@[simp] theorem size_sharedDates : n.sharedDates.size = n.size := rfl

end Numbering
end TransitChanges
