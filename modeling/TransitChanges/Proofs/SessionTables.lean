import TransitChanges.Proofs.KeptTables
import TransitChanges.Proofs.SameVersion
import TransitChanges.Session

/-!
# The tables of a session and the cache

A session that starts refreshes the cache for its version and then assembles its tables from the
records that are left (`run_start`): what there are no records of is built, and so is everything
that refers to it.  So a session has either built all tables itself, or it goes on from those of one
other session, as far as their records could be written (`Session.IsSound`).

A session that stops writes what it built.  If it built everything, then that replaces all tables in
the cache (`stop_of_built`); the version is not looked at, so it stays what the last start made it.
If it restored anything, then the way to the files it would write is refused, as it was when the
records were left out, and nothing changes (`stop_of_restored`).

* `Session.start_of_isOf`, `Session.start_of_isVacant`: starting a session.
* `Session.stop_of_isOf`: stopping one.
-/

namespace TransitChanges

open Cache Bits

namespace Session

open Directory

/-! ## Assembling the tables -/

/-- The session on a timetable that records of the tables lead to, where there are any. -/
def assemble (feed : Feed) (indexes : Option (List IndexRecord)) (rows : Option (List DegreeRecord))
    (vias : Option (List ViaRecord)) : Except Fault Session := do
  let restoredNumbering := indexes.bind fun records =>
    (restoreNumbering feed.source records).toOption
  let numbering ← orBuild restoredNumbering (Numbering.build feed.source)
  let stations ← ChangeStations.build numbering feed.interchanges
  let restoredDegrees := if restoredNumbering.isSome then rows.bind fun records =>
    (Degrees.ofRecords numbering records).toOption else none
  let degrees ← orBuild restoredDegrees
    (Degrees.build numbering numbering.sharedDates feed.interchanges)
  let restoredVias := if restoredDegrees.isSome then vias.bind fun records =>
    (Vias.ofRecords numbering.size records).toOption else none
  let vias ← orBuild restoredVias (.ok (Vias.build numbering.sharedDates degrees))
  return {
    feed
    config := ⟨false⟩
    tables := ⟨degrees, stations, vias⟩
    loaded := ⟨restoredNumbering.isSome, restoredDegrees.isSome, restoredVias.isSome⟩ }

theorem run_tryLoad {α β : Type} [Stored α] (enabled : Bool) (file : String)
    (restore : List α → Except Fault β) (d : Directory) :
    (tryLoad enabled file restore).run d =
      (if enabled then (d.stored? α file).bind fun records => (restore records).toOption else none,
        d) := by
  cases enabled with
  | false => rfl
  | true =>
    have hrun : (tryLoad true file restore).run d =
      ((((load? file : StateM Directory (Option (List α))).run d).1.bind fun records =>
        (restore records).toOption),
        ((load? file : StateM Directory (Option (List α))).run d).2) := rfl
    rw [hrun, run_load?]
    rfl

theorem run_liftExcept {α : Type} (x : Except Fault α) (d : Directory) :
    (start.liftExcept x).run d = (x, d) := by
  cases x <;> rfl

theorem run_start (now : Nat) (feed : Feed) (d : Directory) :
    (start now feed ⟨false⟩).run d =
      match (refresh now feed.version.text).run d with
      | (.ok _, d') =>
        (assemble feed (d'.stored? IndexRecord IndexRecord.file)
          (d'.stored? DegreeRecord DegreeRecord.file) (d'.stored? ViaRecord ViaRecord.file), d')
      | (.error fault, d') => (.error fault, d') := by
  unfold start assemble
  simp only [Bool.not_false, if_true, run_bind, Bool.true_and]
  cases (refresh now feed.version.text).run d with
  | mk result d' =>
    cases result with
    | error fault => rfl
    | ok _ =>
      simp only [run_lift, run_tryLoad, run_liftExcept, if_true]
      generalize ((d'.stored? IndexRecord IndexRecord.file).bind fun records =>
        (restoreNumbering feed.source records).toOption) = restoredNumbering
      cases orBuild restoredNumbering (Numbering.build feed.source) with
      | error fault => rfl
      | ok n =>
        cases hstations : ChangeStations.build n feed.interchanges with
        | error fault =>
          simp only [bind, Except.bind, hstations]
        | ok stations =>
          simp only [bind, Except.bind, hstations]
          generalize (if restoredNumbering.isSome = true then
            (d'.stored? DegreeRecord DegreeRecord.file).bind fun records =>
              (Degrees.ofRecords n records).toOption else none) = restoredDegrees
          cases orBuild restoredDegrees (Degrees.build n n.sharedDates feed.interchanges) with
          | error fault => rfl
          | ok degrees =>
            simp only []
            generalize (if restoredDegrees.isSome = true then
              (d'.stored? ViaRecord ViaRecord.file).bind fun records =>
                (Vias.ofRecords n.size records).toOption else none) = restoredVias
            cases restoredVias <;> rfl

/-- What a session that was assembled is made of. -/
theorem assemble_eq_ok_iff {feed : Feed} {indexes : Option (List IndexRecord)}
    {rows : Option (List DegreeRecord)} {vias : Option (List ViaRecord)} {s : Session} :
    assemble feed indexes rows vias = .ok s ↔
      ∃ restored n stations restoredDegrees degrees restoredVias v,
        restored = (indexes.bind fun records => (restoreNumbering feed.source records).toOption) ∧
        orBuild restored (Numbering.build feed.source) = .ok n ∧
        ChangeStations.build n feed.interchanges = .ok stations ∧
        restoredDegrees = (if restored.isSome then rows.bind fun records =>
          (Degrees.ofRecords n records).toOption else none) ∧
        orBuild restoredDegrees (Degrees.build n n.sharedDates feed.interchanges) = .ok degrees ∧
        restoredVias = (if restoredDegrees.isSome then vias.bind fun records =>
          (Vias.ofRecords n.size records).toOption else none) ∧
        orBuild restoredVias (.ok (Vias.build n.sharedDates degrees)) = .ok v ∧
        s = ⟨feed, ⟨false⟩, ⟨degrees, stations, v⟩,
          ⟨restored.isSome, restoredDegrees.isSome, restoredVias.isSome⟩⟩ := by
  simp only [assemble, Fault.bind_eq_ok_iff]
  constructor
  · rintro ⟨n, hn, stations, hstations, degrees, hdegrees, v, hv, h⟩
    exact ⟨_, n, stations, _, degrees, _, v, rfl, hn, hstations, rfl, hdegrees, rfl, hv,
      (Except.ok.inj h).symm⟩
  · rintro ⟨_, n, stations, _, degrees, _, v, rfl, hn, hstations, rfl, hdegrees, rfl, hv, rfl⟩
    exact ⟨n, hn, stations, hstations, degrees, hdegrees, v, hv, rfl⟩

theorem exists_orBuild {α : Type} (restored : Option α) {build : Except Fault α} {a : α}
    (h : build = .ok a) : ∃ b, orBuild restored build = .ok b := by
  cases restored with
  | none => exact ⟨a, h⟩
  | some b => exact ⟨b, rfl⟩

/-- Tables that can be built for the numbering can be assembled, whatever records there are. -/
theorem exists_assemble {feed : Feed} {indexes : Option (List IndexRecord)}
    {n : Numbering} {stations : ChangeStations} {degrees : Degrees}
    (hn : orBuild (indexes.bind fun records => (restoreNumbering feed.source records).toOption)
      (Numbering.build feed.source) = .ok n)
    (hstations : ChangeStations.build n feed.interchanges = .ok stations)
    (hdegrees : Degrees.build n n.sharedDates feed.interchanges = .ok degrees)
    (rows : Option (List DegreeRecord)) (vias : Option (List ViaRecord)) :
    ∃ s, assemble feed indexes rows vias = .ok s := by
  let restored := indexes.bind fun records => (restoreNumbering feed.source records).toOption
  let restoredDegrees := if restored.isSome then rows.bind fun records =>
    (Degrees.ofRecords n records).toOption else none
  let restoredVias := if restoredDegrees.isSome then vias.bind fun records =>
    (Vias.ofRecords n.size records).toOption else none
  obtain ⟨degrees', hdegrees'⟩ := exists_orBuild restoredDegrees hdegrees
  obtain ⟨vias', hvias'⟩ := exists_orBuild restoredVias
    (rfl : (.ok (Vias.build n.sharedDates degrees') : Except Fault Vias) = _)
  exact ⟨_, assemble_eq_ok_iff.mpr ⟨restored, n, stations, restoredDegrees, degrees', restoredVias,
    vias', rfl, hn, hstations, rfl, hdegrees', rfl, hvias', rfl⟩⟩

/-! ## Where the tables come from -/

/-- The tables of a session that was started on files with records of some tables. -/
structure IsRestored (s : Session) (parts : List String) (t : Connections) : Prop where
  loaded : s.loaded.numbering = true
  numbering : restoreNumbering s.feed.source t.numbering.records = .ok s.tables.numbering
  stations : ChangeStations.build s.tables.numbering s.feed.interchanges = .ok s.tables.stations
  degrees : (s.loaded.degrees = true ∧ s.tables.degrees.levels = t.degrees.levels) ∨
    (s.loaded.degrees = false ∧ Bars parts DegreeRecord.file ∧
      Degrees.build s.tables.numbering s.tables.numbering.sharedDates s.feed.interchanges =
        .ok s.tables.degrees)
  vias : (s.loaded.vias = true ∧ s.loaded.degrees = true ∧ s.tables.vias = t.vias) ∨
    (s.loaded.vias = false ∧ (s.loaded.degrees = true → Bars parts ViaRecord.file) ∧
      s.tables.vias = Vias.build s.tables.numbering.sharedDates s.tables.degrees)

/-- The tables of a session are all built, and none of them is taken to be restored. -/
structure IsBuilt (s : Session) : Prop where
  loaded : s.loaded = ⟨false, false, false⟩
  tables : Connections.build s.feed.source s.feed.interchanges = .ok s.tables

/-- A session that uses the cache.  It built all its tables, or it restored those of a timetable
that may stand under its version, as far as there are records of them. -/
structure IsSound (s : Session) (parts : List String) (own : Feed → String → Prop) : Prop where
  config : s.config = ⟨false⟩
  tables : s.IsBuilt ∨ ∃ feed, own feed s.feed.version.text ∧
    ∃ t, Connections.build feed.source feed.interchanges = .ok t ∧ s.IsRestored parts t

variable {feed : Feed} {s : Session} {rows : Option (List DegreeRecord)}
  {vias : Option (List ViaRecord)} {indexes : Option (List IndexRecord)} {d d' : Directory}
  {own : Feed → String → Prop} {version : String} {now : Nat}

theorem feed_of_assemble (h : assemble feed indexes rows vias = .ok s) :
    s.feed = feed ∧ s.config = ⟨false⟩ := by
  obtain ⟨_, _, _, _, _, _, _, -, -, -, -, -, -, -, rfl⟩ := assemble_eq_ok_iff.mp h
  exact ⟨rfl, rfl⟩

/-- Tables are restored only together with those that they refer to. -/
theorem loaded_of_assemble (h : assemble feed indexes rows vias = .ok s) :
    (s.loaded.vias = true → s.loaded.degrees = true) ∧
      (s.loaded.degrees = true → s.loaded.numbering = true) := by
  obtain ⟨restored, _, _, restoredDegrees, _, restoredVias, _, -, -, -, hdegrees, -, hvias, -,
    rfl⟩ := assemble_eq_ok_iff.mp h
  refine ⟨fun hloaded => ?_, fun hloaded => ?_⟩
  · by_contra hnone
    rw [if_neg hnone] at hvias
    rw [hvias] at hloaded
    cases hloaded
  · by_contra hnone
    rw [if_neg hnone] at hdegrees
    rw [hdegrees] at hloaded
    cases hloaded

/-- A session that starts is assembled from what is left of the cache. -/
theorem exists_assemble_of_start (h : (start now feed ⟨false⟩).run d = (.ok s, d')) :
    ∃ indexes rows vias, assemble feed indexes rows vias = .ok s := by
  rw [run_start] at h
  split at h
  · exact ⟨_, _, _, (Prod.mk.inj h).1⟩
  · cases h

/-- What is not restored is built, and so is everything that refers to it. -/
theorem isBuilt_of_assemble (h : assemble feed indexes rows vias = .ok s)
    (hnone : (indexes.bind fun records => (restoreNumbering feed.source records).toOption) = none) :
    s.IsBuilt := by
  obtain ⟨_, n, stations, _, degrees, _, v, rfl, hn, hstations, rfl, hdegrees, rfl, hv, rfl⟩ :=
    assemble_eq_ok_iff.mp h
  rw [hnone] at hn hdegrees hv
  refine ⟨by simp [hnone], ?_⟩
  simp only [Connections.build, Fault.bind_eq_ok_iff]
  exact ⟨n, hn, stations, hstations, degrees, hdegrees, by rw [← Except.ok.inj hv]; rfl⟩

theorem size_of_restoreNumbering {source : RouteSource} {records : List IndexRecord}
    {n : Numbering} (h : restoreNumbering source records = .ok n) : n.size = records.length := by
  rw [restoreNumbering, Fault.bind_eq_ok_iff] at h
  obtain ⟨n', hrecords, h⟩ := h
  split at h
  · cases h
    exact Numbering.size_of_ofRecords hrecords
  · cases h

/-- A session on the files of some tables restores what there are records of. -/
theorem isRestored_of_assemble {source : RouteSource} {interchanges : List Interchange}
    {t : Connections} (ht : Connections.build source interchanges = .ok t) {parts : List String}
    {n : Numbering} (hn : restoreNumbering feed.source t.numbering.records = .ok n)
    (h : assemble feed (some t.numbering.records) rows vias = .ok s)
    (hrest : (Bars parts DegreeRecord.file ∧ rows = none) ∨ (rows = some t.degrees.records ∧
      ((Bars parts ViaRecord.file ∧ vias = none) ∨ vias = some t.vias.records))) :
    s.IsRestored parts t := by
  obtain ⟨_, hbuilt⟩ := Connections.isBuilt_of_build ht
  have hsquares := Degrees.squares_of_build hbuilt.degrees
  have hsize : n.size = t.degrees.size := by
    rw [size_of_restoreNumbering hn, Numbering.records]
    simp [Degrees.size, Connections.numbering, Numbering.size]
  obtain ⟨_, n', stations, restoredDegrees, degrees, restoredVias, v, rfl, hn', hstations,
    hrestoredDegrees, hdegrees, hrestoredVias, hv, rfl⟩ := assemble_eq_ok_iff.mp h
  have hrestored : ((some t.numbering.records).bind fun records =>
      (restoreNumbering feed.source records).toOption) = some n := by
    rw [Option.bind_some, hn]
    rfl
  rw [hrestored] at hn' hrestoredDegrees ⊢
  obtain rfl : n = n' := Except.ok.inj hn'
  rcases hrest with ⟨hbars, rfl⟩ | ⟨rfl, hvias⟩
  · obtain rfl : restoredDegrees = none := hrestoredDegrees
    obtain rfl : restoredVias = none := hrestoredVias
    have hnumbering : degrees.numbering = n := Degrees.numbering_of_build hdegrees
    subst hnumbering
    exact ⟨rfl, hn, hstations, .inr ⟨rfl, hbars, hdegrees⟩,
      .inr ⟨rfl, fun hloaded => absurd hloaded Bool.false_ne_true, (Except.ok.inj hv).symm⟩⟩
  · have hrows : restoredDegrees = some ⟨n, t.degrees.levels, t.degrees.length_levels⟩ := by
      rw [hrestoredDegrees, Option.isSome_some, if_pos rfl, Option.bind_some,
        Degrees.ofRecords_records hsquares hsize]
      rfl
    subst hrows
    obtain rfl := Except.ok.inj hdegrees
    rcases hvias with ⟨hbars, rfl⟩ | rfl
    · obtain rfl : restoredVias = none := hrestoredVias
      exact ⟨rfl, hn, hstations, .inl ⟨rfl, rfl⟩,
        .inr ⟨rfl, fun _ => hbars, (Except.ok.inj hv).symm⟩⟩
    · have hrecords : restoredVias = some t.vias := by
        rw [hrestoredVias, Option.isSome_some, if_pos rfl, Option.bind_some, hsize, hbuilt.vias,
          Vias.ofRecords_records hsquares]
        rfl
      subst hrecords
      obtain rfl := Except.ok.inj hv
      exact ⟨rfl, hn, hstations, .inl ⟨rfl, rfl⟩, .inl ⟨rfl, rfl, rfl⟩⟩

theorem isRestored_of_holds {source : RouteSource} {interchanges : List Interchange}
    {t : Connections} (ht : Connections.build source interchanges = .ok t) (hholds : d.Holds t)
    {n : Numbering} (hn : restoreNumbering feed.source t.numbering.records = .ok n)
    (h : assemble feed (d.stored? IndexRecord IndexRecord.file)
      (d.stored? DegreeRecord DegreeRecord.file) (d.stored? ViaRecord ViaRecord.file) = .ok s) :
    s.IsRestored d.parts t := by
  rw [hholds.indexes] at h
  refine isRestored_of_assemble ht hn h ?_
  rcases hholds.rest with ⟨hbars, -⟩ | ⟨hrows, hbars | hvias⟩
  · exact .inl ⟨hbars, stored?_of_none (entry?_of_bars (by decide) hbars)⟩
  · exact .inr ⟨hrows, .inl ⟨hbars, stored?_of_none (entry?_of_bars (by decide) hbars)⟩⟩
  · exact .inr ⟨hrows, .inr hvias⟩

/-- A session that restored no numbering built all its tables. -/
theorem IsSound.isBuilt {parts : List String} (hs : s.IsSound parts own)
    (hloaded : s.loaded.numbering = false) : s.IsBuilt :=
  hs.tables.resolve_right fun ⟨_, _, _, _, hrestored⟩ =>
    Bool.false_ne_true (hloaded.symm.trans hrestored.loaded)

/-- Where no way is refused, everything is restored. -/
theorem IsRestored.all_loaded {parts : List String} {t : Connections} (hs : s.IsRestored parts t)
    (hrows : ¬ Bars parts DegreeRecord.file) (hvias : ¬ Bars parts ViaRecord.file) :
    s.loaded.all = true := by
  have hdegrees : s.loaded.degrees = true := by
    rcases hs.degrees with ⟨hloaded, -⟩ | ⟨-, hbars, -⟩
    · exact hloaded
    · exact absurd hbars hrows
  rcases hs.vias with ⟨hloaded, -, -⟩ | ⟨-, hbars, -⟩
  · exact Loaded.all_iff.mpr ⟨hs.loaded, hdegrees, hloaded⟩
  · exact absurd (hbars hdegrees) hvias

/-- The tables of a session that is assembled from a directory of its version. -/
theorem isSound_of_assemble (hd : d.IsOf own feed.version.text)
    (h : assemble feed (d.stored? IndexRecord IndexRecord.file)
      (d.stored? DegreeRecord DegreeRecord.file) (d.stored? ViaRecord ViaRecord.file) = .ok s) :
    s.IsSound d.parts own := by
  obtain ⟨hfeed, hconfig⟩ := feed_of_assemble h
  refine ⟨hconfig, ?_⟩
  rw [hfeed]
  rcases hd.tables with hnone | ⟨other, hother, t, ht, hholds⟩
  · refine .inl (isBuilt_of_assemble h ?_)
    rw [stored?_of_none hnone.indexes]
    rfl
  · cases hn : restoreNumbering feed.source t.numbering.records with
    | error fault =>
      refine .inl (isBuilt_of_assemble h ?_)
      rw [hholds.indexes, Option.bind_some, hn]
      rfl
    | ok n => exact .inr ⟨other, hother, t, ht, isRestored_of_holds ht hholds hn h⟩

/-! ## Starting a session -/

/-- Once the cache is refreshed, a start changes nothing more. -/
theorem start_of_refresh {cleared : Bool}
    (hrun : (refresh now feed.version.text).run d = (.ok cleared, d'))
    (hd' : d'.IsOf own feed.version.text) :
    ∃ result, (start now feed ⟨false⟩).run d = (result, d') ∧
      ∀ s, result = .ok s → s.feed = feed ∧ s.IsSound d'.parts own := by
  rw [run_start, hrun]
  exact ⟨_, rfl, fun s hs => ⟨(feed_of_assemble hs).1, isSound_of_assemble hd' hs⟩⟩

/-- **Starting a session on a directory of some version** makes it one of the version of the
session, also where the session does not get its tables. -/
theorem start_of_isOf (hnow : now < UInt64.size) (hd : d.IsOf own version) (feed : Feed)
    (hown : ¬ d.IsNamed → ∀ other, own other version → own other feed.version.text) :
    ∃ result d', (start now feed ⟨false⟩).run d = (result, d') ∧ d'.toPlace = d.toPlace ∧
      d'.IsOf own feed.version.text ∧
      ∀ s, result = .ok s → s.feed = feed ∧ s.IsSound d'.parts own := by
  obtain ⟨cleared, d', hrun, hplace, hof⟩ := hd.refresh hnow feed.version.text hown
  obtain ⟨result, hstart, hresult⟩ := start_of_refresh hrun hof
  exact ⟨result, d', hstart, hplace, hof, hresult⟩

/-- **Starting a session on a vacant directory** makes it one of the version of the session, unless
the version cannot be recorded. -/
theorem start_of_isVacant (hnow : now < UInt64.size) (hd : d.IsVacant) (own : Feed → String → Prop)
    (feed : Feed) :
    (∃ fault d', (start now feed ⟨false⟩).run d = (.error fault, d') ∧ d'.toPlace = d.toPlace ∧
      d'.IsVacant) ∨
    ∃ result d', (start now feed ⟨false⟩).run d = (result, d') ∧ d'.toPlace = d.toPlace ∧
      d'.IsOf own feed.version.text ∧
      ∀ s, result = .ok s → s.feed = feed ∧ s.IsSound d'.parts own := by
  rcases hd.refresh hnow own feed.version.text with ⟨fault, d', hrun, hplace, hvacant⟩ |
    ⟨cleared, d', hrun, hplace, hof⟩
  · refine .inl ⟨fault, d', ?_, hplace, hvacant⟩
    rw [run_start, hrun]
  · obtain ⟨result, hstart, hresult⟩ := start_of_refresh hrun hof
    exact .inr ⟨result, d', hstart, hplace, hof, hresult⟩

/-! ## Stopping a session -/

/-- The tables are saved one after the other, apart from those that were restored. -/
theorem run_stop (now : Nat) (hconfig : s.config = ⟨false⟩) (d : Directory) :
    (stop now s).run d =
      ((if s.loaded.numbering then pure ()
        else save now IndexRecord.file s.tables.numbering.records) >>= fun _ =>
      (if s.loaded.degrees then pure ()
        else save now DegreeRecord.file s.tables.degrees.records) >>= fun _ =>
      if s.loaded.vias then pure ()
        else save now ViaRecord.file s.tables.vias.records).run d := by
  unfold stop
  rw [hconfig]
  cases s.loaded.numbering <;> cases s.loaded.degrees <;> cases s.loaded.vias <;> rfl

/-- **A session that built its tables leaves them in the cache**, of whatever version that is
recorded to be.  If not even the first of its files can be written, nothing changes. -/
theorem stop_of_built (hnow : now < UInt64.size) (hconfig : s.config = ⟨false⟩) (hs : s.IsBuilt)
    (hd : d.IsOf own version) :
    ∃ result d', (stop now s).run d = (result, d') ∧ d'.toPlace = d.toPlace ∧
      d'.IsMarked version ∧
      (d' = d ∧ Bars d.parts IndexRecord.file ∨ d'.Holds s.tables) := by
  obtain ⟨hn, hbuilt⟩ := Connections.isBuilt_of_build hs.tables
  have hsize := Numbering.size_le_of_build hn
  have hsquares := Degrees.squares_of_build hbuilt.degrees
  have hindexFile : Directory.IsPlain IndexRecord.file := by decide
  have hrowFile : Directory.IsPlain DegreeRecord.file := by decide
  have hviaFile : Directory.IsPlain ViaRecord.file := by decide
  have hviaRecords : ∀ r ∈ s.tables.vias.records, Stored.ReadsBack r := by
    rw [hbuilt.vias]
    exact fun _ => Vias.readsBack_of_mem_records hsquares hsize
  rw [run_stop now hconfig, hs.loaded, run_bind]
  simp only [Bool.false_eq_true, if_false]
  rcases hd.toIsMarked.save hnow hindexFile (by decide) (hd.ne_folder (by decide))
      fun _ => Numbering.readsBack_of_mem_records hsize with
    ⟨hbars, fault, hsave⟩ | ⟨d₁, hsave, hplace₁, hmarked₁, hindexes₁, hothers₁⟩
  · rw [hsave]
    exact ⟨.error fault, d, rfl, rfl, hd.toIsMarked, .inl ⟨rfl, hbars⟩⟩
  have hrows₁ := hothers₁ _ hrowFile (by decide)
  have hvias₁ := hothers₁ _ hviaFile (by decide)
  rw [hsave]
  dsimp only
  rw [run_bind]
  rcases hmarked₁.save hnow hrowFile (by decide) (hrows₁.trans_ne (hd.ne_folder (by decide)))
      fun _ => Degrees.readsBack_of_mem_records hsquares hsize with
    ⟨hbars, fault, hsave⟩ | ⟨d₂, hsave, hplace₂, hmarked₂, hrows₂, hothers₂⟩
  · rw [hsave]
    rw [hplace₁] at hbars
    exact ⟨.error fault, d₁, rfl, hplace₁, hmarked₁,
      .inr ⟨hindexes₁, .inl ⟨hplace₁ ▸ hbars, hvias₁.trans (hd.vias_eq_none_of_bars hbars)⟩⟩⟩
  have hindexes₂ := (stored?_congr (hothers₂ _ hindexFile (by decide))).trans hindexes₁
  have hvias₂ := (hothers₂ _ hviaFile (by decide)).trans hvias₁
  rw [hsave]
  dsimp only
  rcases hmarked₂.save hnow hviaFile (by decide) (hvias₂.trans_ne (hd.ne_folder (by decide)))
      hviaRecords with
    ⟨hbars, fault, hsave⟩ | ⟨d₃, hsave, hplace₃, hmarked₃, hvias₃, hothers₃⟩
  · rw [hsave]
    exact ⟨.error fault, d₂, rfl, hplace₂.trans hplace₁, hmarked₂,
      .inr ⟨hindexes₂, .inr ⟨hrows₂, .inl hbars⟩⟩⟩
  · rw [hsave]
    have hindexes₃ := (stored?_congr (hothers₃ _ hindexFile (by decide))).trans hindexes₂
    have hrows₃ := (stored?_congr (hothers₃ _ hrowFile (by decide))).trans hrows₂
    exact ⟨.ok (), d₃, rfl, hplace₃.trans (hplace₂.trans hplace₁), hmarked₃,
      .inr ⟨hindexes₃, .inr ⟨hrows₃, .inr hvias₃⟩⟩⟩

/-- **A session that restored tables leaves the cache as it is.** -/
theorem stop_of_restored (now : Nat) {t : Connections} (hconfig : s.config = ⟨false⟩)
    (hs : s.IsRestored d.parts t) (hd : d.IsMarked version) :
    ∃ result, (stop now s).run d = (result, d) := by
  obtain ⟨folder, hpath⟩ := hd.exists_path?
  have hbarred {α : Type} [Stored α] {file : String} (hn : Directory.IsPlain file)
      (hbars : Bars d.parts file) (records : List α) :
      ∃ fault, (save now file records).run d = (.error fault, d) := by
    obtain ⟨fault, hsave⟩ := run_save_of_bars now hn hbars records
    rw [make_of_path? hpath] at hsave
    exact ⟨fault, hsave⟩
  rw [run_stop now hconfig, hs.loaded, if_pos rfl, run_bind, run_pure]
  dsimp only
  rw [run_bind]
  rcases hs.degrees with ⟨hloaded, -⟩ | ⟨hloaded, hbars, -⟩
  · rw [hloaded, if_pos rfl, run_pure]
    dsimp only
    rcases hs.vias with ⟨hloadedVias, -, -⟩ | ⟨hloadedVias, hbars, -⟩
    · rw [hloadedVias, if_pos rfl]
      exact ⟨.ok (), run_pure () d⟩
    · rw [hloadedVias, if_neg Bool.false_ne_true]
      obtain ⟨fault, hsave⟩ := hbarred (by decide) (hbars hloaded) s.tables.vias.records
      exact ⟨.error fault, hsave⟩
  · rw [hloaded, if_neg Bool.false_ne_true]
    obtain ⟨fault, hsave⟩ := hbarred (by decide) hbars s.tables.degrees.records
    rw [hsave]
    exact ⟨.error fault, rfl⟩

/-- **Stopping a session** leaves the version as it is recorded.  The tables in the cache may stand
under it afterwards if those that the session built may. -/
theorem stop_of_isOf (hnow : now < UInt64.size) (hs : s.IsSound d.parts own)
    (hd : d.IsOf own version) (hown : s.loaded.numbering = false → own s.feed version) :
    ∃ result d', (stop now s).run d = (result, d') ∧ d'.toPlace = d.toPlace ∧
      d'.IsOf own version := by
  rcases hs.tables with hbuilt | ⟨feed, -, t, -, hrestored⟩
  · obtain ⟨result, d', hrun, hplace, hmarked, htables⟩ := stop_of_built hnow hs.config hbuilt hd
    refine ⟨result, d', hrun, hplace, ?_⟩
    rcases htables with ⟨rfl, -⟩ | hholds
    · exact hd
    · have hloaded : s.loaded.numbering = false := by rw [hbuilt.loaded]
      exact ⟨hmarked, .inr ⟨s.feed, hown hloaded, s.tables, hbuilt.tables, hholds⟩⟩
  · obtain ⟨result, hrun⟩ := stop_of_restored now hs.config hrestored hd.toIsMarked
    exact ⟨result, d, hrun, rfl, hd⟩

end Session
end TransitChanges
