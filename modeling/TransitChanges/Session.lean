import TransitChanges.Cache.Store
import TransitChanges.Planner
import TransitChanges.Version

/-!
# Sessions

A session holds the tables of one timetable.  It starts by restoring them from the cache directory
or building them, and stores the tables it built when it stops.  A session may also be dropped
without stopping.

The cache is used only if the routes are all there are; a *filtered* session leaves it alone.  A
cache made from another version of the timetable is cleared first.  A table is restored only if the
tables that it refers to were restored as well; one that cannot be loaded or does not fit is built
instead.

* `Loaded.all_iff`: when everything came from the cache.
* `run_start_filtered`: a session that leaves the cache alone builds its tables together.
-/

namespace TransitChanges

open Cache

/-- How a session is run. -/
structure SessionConfig where
  /-- The routes are only a part of those there are. -/
  filtered : Bool
  deriving DecidableEq

/-- Which tables came from the cache. -/
structure Loaded where
  numbering : Bool
  degrees : Bool
  vias : Bool
  deriving DecidableEq

namespace Loaded

/-- Whether all tables came from the cache. -/
def all (l : Loaded) : Bool :=
  l.numbering && l.degrees && l.vias

/-- When everything came from the cache. -/
theorem all_iff {l : Loaded} :
    l.all = true ↔ l.numbering = true ∧ l.degrees = true ∧ l.vias = true := by
  simp [all, and_assoc]

end Loaded

/-- The tables of a timetable, in use. -/
structure Session where
  feed : Feed
  config : SessionConfig
  tables : Connections
  loaded : Loaded

namespace Session

/-- The numbering that records tell, if it is the same in both directions. -/
def restoreNumbering (source : RouteSource) (records : List IndexRecord) :
    Except Fault Numbering := do
  let n ← Numbering.ofRecords source records
  if n.isValid then return n else .error (Numbering.stale .notValid)

/-- What a file of the cache holds, restored, if the cache is to be used and that succeeds. -/
def tryLoad {α β : Type} [Stored α] (enabled : Bool) (file : String)
    (restore : List α → Except Fault β) : StateM Directory (Option β) := do
  if enabled then
    let records : Option (List α) ← load? file
    return records.bind fun records => (restore records).toOption
  else return none

/-- The value that was restored, or the one that is built. -/
def orBuild {α : Type} (restored : Option α) (build : Except Fault α) : Except Fault α :=
  match restored with
  | some a => .ok a
  | none => build

/-- Start a session on a timetable. -/
def start (now : Nat) (feed : Feed) (config : SessionConfig) : CacheM Session := do
  let useCache := !config.filtered
  if useCache then
    let _ ← refresh now feed.version.text
  let restoredNumbering ← tryLoad useCache IndexRecord.file (restoreNumbering feed.source)
  let numbering ← liftExcept (orBuild restoredNumbering (Numbering.build feed.source))
  let stations ← liftExcept (ChangeStations.build numbering feed.interchanges)
  let shared := numbering.sharedDates
  let restoredDegrees ← tryLoad (useCache && restoredNumbering.isSome) DegreeRecord.file
    (Degrees.ofRecords numbering)
  let degrees ← liftExcept
    (orBuild restoredDegrees (Degrees.build numbering shared feed.interchanges))
  let restoredVias ← tryLoad (useCache && restoredDegrees.isSome) ViaRecord.file
    (Vias.ofRecords numbering.size)
  let vias ← liftExcept (orBuild restoredVias (.ok (Vias.build shared degrees)))
  return {
    feed
    config
    tables := ⟨degrees, stations, vias⟩
    loaded := ⟨restoredNumbering.isSome, restoredDegrees.isSome, restoredVias.isSome⟩ }
where
  /-- A step that leaves the cache alone. -/
  liftExcept {α : Type} : Except Fault α → CacheM α
    | .ok a => return a
    | .error fault => throw fault

/-- Stop a session: store the tables that it built. -/
def stop (now : Nat) (s : Session) : CacheM Unit := do
  if !s.config.filtered then
    if !s.loaded.numbering then save now IndexRecord.file s.tables.numbering.records
    if !s.loaded.degrees then save now DegreeRecord.file s.tables.degrees.records
    if !s.loaded.vias then save now ViaRecord.file s.tables.vias.records

/-- What answers questions in a session. -/
def planner (s : Session) : Planner :=
  ⟨s.tables, s.feed.service⟩

/-- A session that leaves the cache alone builds all its tables together. -/
theorem run_start_filtered (now : Nat) (feed : Feed) (d : Directory) :
    (start now feed ⟨true⟩).run d =
      ((Connections.build feed.source feed.interchanges).map fun tables =>
        ⟨feed, ⟨true⟩, tables, ⟨false, false, false⟩⟩, d) := by
  have hload {α β : Type} [Stored α] (file : String) (restore : List α → Except Fault β) :
      tryLoad false file restore = pure none := rfl
  unfold Connections.build
  cases hn : Numbering.build feed.source with
  | error fault =>
    simp only [start, hn, orBuild, start.liftExcept]
    rfl
  | ok n =>
    dsimp only [bind, Except.bind]
    cases hstations : ChangeStations.build n feed.interchanges with
    | error fault =>
      simp [start, hn, hload, orBuild, start.liftExcept, hstations]
      rfl
    | ok stations =>
      dsimp only
      cases hdegrees : Degrees.build n n.sharedDates feed.interchanges with
      | error fault =>
        simp [start, hn, hload, orBuild, start.liftExcept, hstations, hdegrees]
        rfl
      | ok degrees =>
        simp [start, hn, hload, orBuild, start.liftExcept, hstations, hdegrees]
        rfl

end Session
end TransitChanges
