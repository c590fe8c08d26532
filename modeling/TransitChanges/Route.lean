import TransitChanges.Calendar.DateRange
import TransitChanges.Clock.Window
import TransitChanges.Mode

/-!
# Routes

A route is a scheduled service: a line on the map with the dates and weekdays on which it runs,
independent of any single trip.  Two routes are the same route if they have the same name.

Whether two routes ever run on one date (`sharesDateWith`) is asked of every pair when tables are
built, so it is answered from the shared range and the shared weekdays, and dates are looked at
only where the shared range is shorter than a week.

* `runsOn_iff`: when a route runs.
* `sharesDateWith_comm`: running on one date is symmetric.
* `sharesDateWith_of_runsAlike`: it depends on the dates of the routes alone.
-/

namespace TransitChanges

open Calendar Clock

/-- A scheduled service. -/
structure Route where
  id : RouteId
  name : String
  mode : Mode
  dates : DateRange
  days : DaySet
  deriving DecidableEq

namespace Route

/-- Whether the route runs on a date. -/
def runsOn (r : Route) (date : Date) : Bool :=
  r.dates.contains date && r.days.contains date.weekday

/-- Whether two routes could ever run on one date. -/
def sharesDateWith (r s : Route) : Bool :=
  match r.dates.intersection s.dates with
  | some shared => shared.anyDateOn (r.days.inter s.days)
  | none => false

/-- Whether two routes run on the same dates. -/
def runsAlike (r s : Route) : Bool :=
  decide (r.dates = s.dates) && decide (r.days = s.days)

/-- Whether the route runs on the date of a query in a mode that may be used. -/
def isOffered (r : Route) (date : Date) (modes : ModeSet) : Bool :=
  r.runsOn date && modes.contains r.mode

theorem runsOn_iff {r : Route} {date : Date} :
    r.runsOn date = true ↔ r.dates.contains date = true ∧ r.days.contains date.weekday = true :=
  Bool.and_eq_true _ _ ▸ Iff.rfl

/-- Running on one date is symmetric. -/
theorem sharesDateWith_comm (r s : Route) : r.sharesDateWith s = s.sharesDateWith r := by
  have hdays : r.days.inter s.days = s.days.inter r.days :=
    DaySet.ext fun day => by simp [Bool.and_comm]
  rw [sharesDateWith, sharesDateWith, hdays, r.dates.intersection_comm s.dates]

/-- Routes that run on the same dates share dates with the same routes. -/
theorem sharesDateWith_of_runsAlike {r s : Route} (h : r.runsAlike s = true) (t : Route) :
    r.sharesDateWith t = s.sharesDateWith t := by
  rw [runsAlike, Bool.and_eq_true, decide_eq_true_eq, decide_eq_true_eq] at h
  rw [sharesDateWith, sharesDateWith, h.1, h.2]

end Route
end TransitChanges
