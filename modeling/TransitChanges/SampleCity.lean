import TransitChanges.Network.Edit
import TransitChanges.Ranking
import TransitChanges.Session

/-!
# A small city

Three tram lines and a bus around a city centre, and a program that asks a few questions about
them.  It starts a session on a cache directory, prints the changes between five pairs of places and
the routes in the order of their changes to one place, and stops the session.

What the program does is a function of the directory it is given: `report` tells the lines it
prints, whether it succeeded, and what the directory holds in the end.

* `answerAll_ok`: lines that do not fail are all printed.
-/

namespace TransitChanges.SampleCity

open Calendar Clock Cache

/-! ## The city -/

/-- A name that is written out.  No name is empty, so an empty text is taken for `?`. -/
def named {kind : NameKind} (text : String) : Name kind :=
  (Name.ofText? text).getD ⟨"?", by decide⟩

/-- The first day of 2024. -/
def newYear : Date :=
  (Date.ofCivil? ⟨2024, 1, 1⟩).get (by decide)

/-- The last day of 2024. -/
def newYearsEve : Date :=
  (Date.ofCivil? ⟨2024, 12, 31⟩).get (by decide)

/-- The year for which the routes are planned. -/
def year : DateRange :=
  ⟨newYear, newYearsEve, by decide⟩

/-- The routes of the city. -/
def routes : List Route := [
  ⟨named "BLUE", "Altrincham - Bury", .tram, year, .all⟩,
  ⟨named "GREEN", "Eccles - Ashton", .tram, year, .all⟩,
  ⟨named "PINK", "Airport - Victoria", .tram, year, .all⟩,
  ⟨named "X50", "Trafford - Piccadilly", .bus, year, .weekdays⟩]

/-- The stops of the routes, and a walk between two stations. -/
def stops : List Edit := [
  .pickupOnly "ALTRINCHAM" "BLUE",
  .stop "DEANSGATE" "BLUE",
  .stop "DEANSGATE" "GREEN",
  .stop "DEANSGATE" "X50",
  .dropoffOnly "BURY" "BLUE",
  .pickupOnly "ECCLES" "GREEN",
  .stop "PICCADILLY" "GREEN",
  .stop "PICCADILLY" "X50",
  .dropoffOnly "ASHTON" "GREEN",
  .pickupOnly "AIRPORT" "PINK",
  .stop "CORNBROOK" "PINK",
  .stop "CORNBROOK" "BLUE",
  .dropoffOnly "VICTORIA" "PINK",
  .pickupOnly "TRAFFORD" "X50",
  .walk "VICTORIA" "BURY"]

/-- The network of the city. -/
def network : Network :=
  .ofEdits (routes.map .route ++ stops)

/-! ## The questions -/

/-- The date asked about, Friday 15 March 2024. -/
def date : Date :=
  (Date.ofCivil? ⟨2024, 3, 15⟩).get (by decide)

/-- Between eight and ten o'clock. -/
def morning : Window where
  start := (Time.of? (8 * 3600) 0).get (by decide)
  finish := (Time.of? (10 * 3600) 0).get (by decide)

/-- The morning asked about, in any mode. -/
def scope : Scope := ⟨date, morning, .all⟩

/-- The pairs of places asked about. -/
def journeys : List (StationId × StationId) := [
  (named "ALTRINCHAM", named "BURY"),
  (named "ALTRINCHAM", named "ASHTON"),
  (named "AIRPORT", named "ASHTON"),
  (named "ECCLES", named "VICTORIA"),
  (named "TRAFFORD", named "ASHTON")]

/-- The place to which routes are ranked. -/
def goal : StationId := named "ASHTON"

/-- How a number of changes is told. -/
def answerText : Changes → String
  | .exactly n => Text.numeral n ++ " change(s)"
  | .unreachable => "unreachable"

/-- The line for a pair of places. -/
def journeyLine (planner : Planner) (start finish : StationId) : Except Fault String := do
  let changes ← planner.changesBetween (.ofList [start]) (.ofList [finish]) scope
  return start.text ++ " -> " ++ finish.text ++ ": " ++ answerText changes

/-- The line for the ranking of all routes. -/
def rankingLine (planner : Planner) : Except Fault String := do
  let ranking ← planner.rankingFor (.ofList [goal]) scope
  let routes ← (ranking.sort Route.id planner.tables.numbering.routes.toList).result
  return "Routes by changes to " ++ goal.text ++ ": " ++
    String.intercalate ", " (routes.map fun route => route.id.text)

/-! ## The run -/

/-- What the program printed, and why it stopped if it failed. -/
structure Report where
  lines : List String
  failure : Option Fault

/-- The lines of questions, up to the first that fails. -/
def answerAll : List (Except Fault String) → Report
  | [] => ⟨[], none⟩
  | .error fault :: _ => ⟨[], some fault⟩
  | .ok line :: rest =>
    let report := answerAll rest
    ⟨line :: report.lines, report.failure⟩

/-- Lines that do not fail are all printed. -/
theorem answerAll_ok (lines : List String) : answerAll (lines.map .ok) = ⟨lines, none⟩ := by
  induction lines with
  | nil => rfl
  | cons line lines ih => rw [List.map_cons, answerAll, ih]

/-- All lines of the program. -/
def answers (planner : Planner) : Report :=
  answerAll
    (journeys.map (fun (start, finish) => journeyLine planner start finish) ++
      [rankingLine planner])

/-- A run of the program on a directory at some time. -/
def report (now : Nat) : StateM Directory Report := do
  match ← (Session.start now network.feed ⟨false⟩).run with
  | .error fault => return ⟨[], some fault⟩
  | .ok session =>
    let report := answers session.planner
    match report.failure with
    | some _ => return report
    | none =>
      match ← (session.stop now).run with
      | .ok _ => return report
      | .error fault => return { report with failure := some fault }

end TransitChanges.SampleCity
