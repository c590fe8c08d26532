import TransitChanges.Proofs.SameTables

/-!
# Sessions that overlap

The version of the cache is recorded when a session starts, and its tables are written when it
stops.  A session may start before an earlier one has stopped.  Then the later one records its
version, and when the earlier one stops, its tables come to stand under that version: a stop does
not look at what is recorded, nor does it change it (`LateStop.holds_other_tables`).

So what can be said depends on the order.  Whatever the order, the files hold the tables of one of
the networks that sessions were started for, never a mixture, since a stop either replaces all files
or none.  If every session that built its tables stops while the cache is still of its own version
(`World.Orderly`), and the directory has a name so that it is cleared for another version, then the
tables are of a network of the recorded version.

* `World.Kept.step`: what one start or stop preserves.
* `World.holds_of_run`: what the cache holds after any of them.
-/

namespace TransitChanges

open Cache

/-- A cache directory, and the sessions on it that were started and not stopped. -/
structure World where
  directory : Directory
  running : List Session

namespace World

/-- What can happen: a session is started for a network, or the one at some place is stopped. -/
inductive Event where
  | start (edits : List Edit) (now : UInt64)
  | stop (place : Nat) (now : UInt64)

/-- The timetable of the session that is started, if one is. -/
def Event.feed? : Event → Option Feed
  | .start edits _ => some (Network.ofEdits edits).feed
  | .stop _ _ => none

/-- A session that is started joins those that are running, and one that is stopped leaves them. -/
def step (w : World) : Event → World
  | .start edits now =>
    match (Session.start now.toNat (Network.ofEdits edits).feed ⟨false⟩).run w.directory with
    | (.ok s, d) => ⟨d, w.running ++ [s]⟩
    | (.error _, d) => ⟨d, w.running⟩
  | .stop place now =>
    match w.running[place]? with
    | some s => ⟨((s.stop now.toNat).run w.directory).2, w.running.eraseIdx place⟩
    | none => w

/-- Starts and stops one after the other. -/
def run (w : World) (events : List Event) : World :=
  events.foldl step w

/-- A session that built its tables is stopped only while the cache is of its version. -/
def InTurn (w : World) : Event → Prop
  | .start _ _ => True
  | .stop place _ => ∀ s, w.running[place]? = some s → s.loaded.numbering = false →
      w.directory.recorded? = some s.feed.version.text

/-- Every stop comes in its turn. -/
def Orderly (w : World) : List Event → Prop
  | [] => True
  | e :: events => w.InTurn e ∧ (w.step e).Orderly events

/-! ## What a step does -/

variable {w : World} {d d' : Directory}

theorem step_start_of_ok {edits : List Edit} {now : UInt64} {s : Session}
    (h : (Session.start now.toNat (Network.ofEdits edits).feed ⟨false⟩).run w.directory =
      (.ok s, d)) : w.step (.start edits now) = ⟨d, w.running ++ [s]⟩ := by
  unfold step
  dsimp only
  rw [h]

theorem step_start_of_error {edits : List Edit} {now : UInt64} {fault : Fault}
    (h : (Session.start now.toNat (Network.ofEdits edits).feed ⟨false⟩).run w.directory =
      (.error fault, d)) : w.step (.start edits now) = ⟨d, w.running⟩ := by
  unfold step
  dsimp only
  rw [h]

theorem step_stop_of_some {place : Nat} {s : Session} (h : w.running[place]? = some s)
    (now : UInt64) : w.step (.stop place now) =
      ⟨((s.stop now.toNat).run w.directory).2, w.running.eraseIdx place⟩ := by
  unfold step
  dsimp only
  rw [h]

theorem step_stop_of_none {place : Nat} (h : w.running[place]? = none) (now : UInt64) :
    w.step (.stop place now) = w := by
  unfold step
  dsimp only
  rw [h]

/-! ## What a step preserves -/

/-- The tables of some timetables may stand in the cache, and if all goes in order only under their
own versions. -/
def Own (feeds : List Feed) (orderly : Prop) (feed : Feed) (version : String) : Prop :=
  feed ∈ feeds ∧ (orderly → feed.version.text = version)

/-- The cache and all sessions on it have their tables from some timetables.  All goes in order only
in a directory that has a name. -/
structure Kept (w : World) (feeds : List Feed) (orderly : Prop) : Prop where
  isNamed : orderly → w.directory.IsNamed
  tables : (w.directory.IsVacant ∧ w.running = []) ∨
    ∃ version, w.directory.IsOf (Own feeds orderly) version ∧
      ∀ s ∈ w.running, s.IsSound w.directory.parts (Own feeds orderly) ∧ s.feed ∈ feeds

variable {feeds : List Feed} {orderly : Prop}

theorem kept_of_start {edits : List Edit} {now : UInt64} {result : Except Fault Session}
    (hrun : (Session.start now.toNat (Network.ofEdits edits).feed ⟨false⟩).run w.directory =
      (result, d'))
    (hnamed : orderly → d'.IsNamed)
    (hof : d'.IsOf (Own feeds orderly) (Network.ofEdits edits).feed.version.text)
    (hresult : ∀ s, result = .ok s →
      s.feed = (Network.ofEdits edits).feed ∧ s.IsSound d'.parts (Own feeds orderly))
    (hrunning : ∀ s ∈ w.running, s.IsSound d'.parts (Own feeds orderly) ∧ s.feed ∈ feeds)
    (hfeed : (Network.ofEdits edits).feed ∈ feeds) :
    (w.step (.start edits now)).Kept feeds orderly := by
  cases result with
  | error fault =>
    rw [step_start_of_error hrun]
    exact ⟨hnamed, .inr ⟨_, hof, hrunning⟩⟩
  | ok s =>
    rw [step_start_of_ok hrun]
    refine ⟨hnamed, .inr ⟨_, hof, fun s' hs' => ?_⟩⟩
    rcases List.mem_append.mp hs' with hs' | hs'
    · exact hrunning s' hs'
    · obtain rfl := List.mem_singleton.mp hs'
      obtain ⟨hs, hsound⟩ := hresult s' rfl
      exact ⟨hsound, by rw [hs]; exact hfeed⟩

theorem Kept.start (hw : w.Kept feeds orderly) {edits : List Edit}
    (hfeed : (Network.ofEdits edits).feed ∈ feeds) (now : UInt64) :
    (w.step (.start edits now)).Kept feeds orderly := by
  have hnamed (d' : Directory) (hplace : d'.toPlace = w.directory.toPlace) (h : orderly) :
      d'.IsNamed := by
    rw [hplace]
    exact hw.isNamed h
  rcases hw.tables with ⟨hvacant, hnone⟩ | ⟨version, hof, hrunning⟩
  · rcases Session.start_of_isVacant now.toNat_lt hvacant (Own feeds orderly)
      (Network.ofEdits edits).feed with
      ⟨fault, d', hrun, hplace, hvacant'⟩ | ⟨result, d', hrun, hplace, hof, hresult⟩
    · rw [step_start_of_error hrun]
      exact ⟨hnamed d' hplace, .inl ⟨hvacant', hnone⟩⟩
    · refine kept_of_start hrun (hnamed d' hplace) hof hresult ?_ hfeed
      rw [hnone]
      exact fun s hs => absurd hs List.not_mem_nil
  · -- without a name nothing is cleared, but then nothing is said about the version either
    have hown (hname : ¬ w.directory.IsNamed) (other : Feed)
        (hother : Own feeds orderly other version) :
        Own feeds orderly other (Network.ofEdits edits).feed.version.text :=
      ⟨hother.1, fun h => absurd (hw.isNamed h) hname⟩
    obtain ⟨result, d', hrun, hplace, hof', hresult⟩ :=
      Session.start_of_isOf now.toNat_lt hof (Network.ofEdits edits).feed hown
    exact kept_of_start hrun (hnamed d' hplace) hof' hresult (by rw [hplace]; exact hrunning) hfeed

theorem Kept.stop (hw : w.Kept feeds orderly) {place : Nat} {now : UInt64}
    (hturn : orderly → w.InTurn (.stop place now)) :
    (w.step (.stop place now)).Kept feeds orderly ∧
      (w.step (.stop place now)).directory.recorded? = w.directory.recorded? := by
  cases hplace : w.running[place]? with
  | none =>
    rw [step_stop_of_none hplace]
    exact ⟨hw, rfl⟩
  | some s =>
    rw [step_stop_of_some hplace]
    have hmem : s ∈ w.running := List.mem_of_getElem? hplace
    rcases hw.tables with ⟨-, hnone⟩ | ⟨version, hof, hrunning⟩
    · rw [hnone] at hmem
      exact absurd hmem List.not_mem_nil
    · obtain ⟨hsound, hfeed⟩ := hrunning s hmem
      -- a session that writes its tables may do so under the recorded version
      have hown (hloaded : s.loaded.numbering = false) : Own feeds orderly s.feed version :=
        ⟨hfeed, fun h => Option.some.inj ((hturn h s hplace hloaded).symm.trans hof.recorded?_eq)⟩
      obtain ⟨result, d', hrun, hplace, hof'⟩ :=
        Session.stop_of_isOf now.toNat_lt hsound hof hown
      rw [hrun]
      refine ⟨⟨fun h => ?_, .inr ⟨version, hof', fun s' hs' => ?_⟩⟩,
        hof'.recorded?_eq.trans hof.recorded?_eq.symm⟩
      · rw [hplace]
        exact hw.isNamed h
      · rw [hplace]
        exact hrunning s' (List.mem_of_mem_eraseIdx hs')

/-- **What one start or stop preserves.** -/
theorem Kept.step (hw : w.Kept feeds orderly) {e : Event}
    (hfeed : ∀ edits now, e = .start edits now → (Network.ofEdits edits).feed ∈ feeds)
    (hturn : orderly → w.InTurn e) : (w.step e).Kept feeds orderly := by
  cases e with
  | start edits now => exact hw.start (hfeed edits now rfl) now
  | stop place now => exact (hw.stop hturn).1

theorem Kept.run {events : List Event} (hw : w.Kept feeds orderly)
    (hfeeds : ∀ edits now, .start edits now ∈ events → (Network.ofEdits edits).feed ∈ feeds)
    (horderly : orderly → w.Orderly events) : (w.run events).Kept feeds orderly := by
  induction events generalizing w with
  | nil => exact hw
  | cons e events ih =>
    refine ih (hw.step (fun edits now he => hfeeds edits now (he ▸ List.mem_cons_self))
      fun h => (horderly h).1) (fun edits now he => hfeeds edits now (List.mem_cons_of_mem _ he))
      fun h => (horderly h).2

theorem Kept.holds_stop (hw : w.Kept feeds orderly) {place : Nat} {s : Session}
    (hplace : w.running[place]? = some s) (hloaded : s.loaded.numbering = false) (now : UInt64) :
    (w.step (.stop place now)).directory.Holds s.tables ∨
      Directory.Bars w.directory.parts IndexRecord.file ∧
        (w.step (.stop place now)).directory = w.directory := by
  have hmem : s ∈ w.running := List.mem_of_getElem? hplace
  rcases hw.tables with ⟨-, hnone⟩ | ⟨version, hof, hrunning⟩
  · rw [hnone] at hmem
    exact absurd hmem List.not_mem_nil
  · have hsound := (hrunning s hmem).1
    obtain ⟨result, d', hrun, -, -, htables⟩ := Session.stop_of_built
      now.toNat_lt hsound.config (hsound.isBuilt hloaded) hof
    rw [step_stop_of_some hplace, hrun]
    rcases htables with ⟨rfl, hbars⟩ | hholds
    · exact .inr ⟨hbars, rfl⟩
    · exact .inl hholds

/-! ## What the cache holds -/

/-- **What the cache holds after any starts and stops.**  There are no tables in the files, or they
are all those of one network that a session was started for; if every stop came in its turn, and
the directory has a name, then that network has the recorded version.  A stop never changes the
version that is recorded: a session that built its tables puts them under whatever it finds, unless
the way to the first file is refused. -/
theorem holds_of_run (hd : d.IsVacant) (events : List Event) :
    let w := run ⟨d, []⟩ events
    (w.directory.HoldsNone ∨ ∃ edits now, .start edits now ∈ events ∧
      ∃ t, Connections.build (Network.ofEdits edits).source (Network.ofEdits edits).interchanges =
          .ok t ∧
        w.directory.Holds t ∧
        (d.IsNamed → Orderly ⟨d, []⟩ events →
          w.directory.recorded? = some (Network.ofEdits edits).feed.version.text)) ∧
    ∀ place now s, w.running[place]? = some s →
      (w.step (.stop place now)).directory.recorded? = w.directory.recorded? ∧
      (s.loaded.numbering = false → (w.step (.stop place now)).directory.Holds s.tables ∨
        Directory.Bars w.directory.parts IndexRecord.file ∧
          (w.step (.stop place now)).directory = w.directory) := by
  intro w
  have hkept (orderly : Prop) (h : orderly → d.IsNamed ∧ Orderly ⟨d, []⟩ events) :
      w.Kept (events.filterMap Event.feed?) orderly :=
    Kept.run ⟨fun ho => (h ho).1, .inl ⟨hd, rfl⟩⟩
      (fun edits now he => List.mem_filterMap.mpr ⟨_, he, rfl⟩) fun ho => (h ho).2
  refine ⟨?_, fun place now s hplace => ⟨?_, fun hloaded => ?_⟩⟩
  · rcases (hkept (d.IsNamed ∧ Orderly ⟨d, []⟩ events) id).tables with
      ⟨hvacant, -⟩ | ⟨version, hof, -⟩
    · exact .inl hvacant.holdsNone
    · rcases hof.tables with hnone | ⟨feed, ⟨hfeed, hversion⟩, t, ht, hholds⟩
      · exact .inl hnone
      · obtain ⟨e, he, hfeed⟩ := List.mem_filterMap.mp hfeed
        cases e with
        | stop place now => cases hfeed
        | start edits now =>
          obtain rfl := Option.some.inj hfeed
          refine .inr ⟨edits, now, he, t, ht, hholds, fun hname horderly => ?_⟩
          rw [hof.recorded?_eq, hversion ⟨hname, horderly⟩]
  · exact ((hkept False False.elim).stop False.elim).2
  · exact (hkept False False.elim).holds_stop hplace hloaded now

/-! ## A stop that comes late -/

/-- Two sessions that overlap.  The first one runs with tables that it built, while the cache is of
the version of the second. -/
theorem running_of_start_start {folder : Path} (hd : d.IsVacant) (hpath : d.path? = some folder)
    (hbars : ¬ Directory.Bars d.parts versionFile) (first : List Edit)
    (hsize : (Network.ofEdits first).routes.size ≤ maxRoutes) (second : List Edit)
    (now now' : UInt64) :
    let w := run ⟨d, []⟩ [.start first now, .start second now']
    w.directory.toPlace = d.toPlace ∧
      w.directory.recorded? = some (Network.ofEdits second).feed.version.text ∧
      ∃ s, w.running[0]? = some s ∧ s.loaded.numbering = false ∧
        Connections.build (Network.ofEdits first).source (Network.ofEdits first).interchanges =
          .ok s.tables := by
  obtain ⟨s, d₁, hstart, hplace₁, hof₁, -, hbuilt, htables⟩ := Session.exists_start_of_isVacant
    now.toNat_lt hd hpath hbars (Network.known_ofEdits first) hsize
  obtain ⟨result, d₂, hstart₂, hplace₂, hof₂, -⟩ :=
    Session.start_of_isOf now'.toNat_lt hof₁ (Network.ofEdits second).feed
      fun _ _ hnone => hnone
  have hloaded : s.loaded.numbering = false := by rw [hbuilt.loaded]
  have hrun : run ⟨d, []⟩ [.start first now, .start second now'] =
      (⟨d₁, [s]⟩ : World).step (.start second now') := by
    rw [run, List.foldl_cons, step_start_of_ok (w := ⟨d, []⟩) hstart]
    rfl
  rw [hrun]
  cases result with
  | error fault =>
    rw [step_start_of_error (w := ⟨d₁, [s]⟩) hstart₂]
    exact ⟨hplace₂.trans hplace₁, hof₂.recorded?_eq, s, rfl, hloaded, htables⟩
  | ok s' =>
    rw [step_start_of_ok (w := ⟨d₁, [s]⟩) hstart₂]
    exact ⟨hplace₂.trans hplace₁, hof₂.recorded?_eq, s, rfl, hloaded, htables⟩

end World

namespace LateStop

open Calendar SampleCity AddedAgain

/-- The two lines, without a station in common. -/
def apart : List Edit := [
  .route (line "A" year),
  .route (line "B" (.single date)),
  .stop "S" "A",
  .stop "T" "B"]

/-- What is recorded of the lines. -/
def lines : List RouteVersion :=
  [⟨named "A", .tram, year, .all⟩, ⟨named "B", .tram, .single date, .all⟩]

theorem version_of_lines {net : Network}
    (h : net.source.routes = [line "A" year, line "B" (.single date)]) : net.feed.version =
      ⟨lines, (net.interchanges.map InterchangeVersion.of).mergeSort InterchangeVersion.le⟩ := by
  rw [Feed.version, Version.of]
  change Version.mk (List.map _ (List.mergeSort net.source.routes _)) _ = _
  rw [h, List.mergeSort_of_pairwise (by decide)]
  rfl

theorem version_apart : (Network.ofEdits apart).feed.version = ⟨lines, []⟩ := by
  have hinterchanges : (Network.ofEdits apart).interchanges = [] := rfl
  rw [version_of_lines rfl, hinterchanges, List.map_nil, List.mergeSort_nil]

theorem version_early : (Network.ofEdits early).feed.version =
    ⟨lines, [⟨named "S", [named "A", named "B"], [named "A", named "B"]⟩]⟩ := by
  have hinterchanges : (Network.ofEdits early).interchanges =
      [⟨named "S", [line "A" year, line "B" (.single date)],
        [line "A" year, line "B" (.single date)]⟩] := rfl
  have hnames : InterchangeVersion.sortedNames [line "A" year, line "B" (.single date)] =
      [named "A", named "B"] := by
    rw [InterchangeVersion.sortedNames, List.mergeSort_of_pairwise (by decide)]
    rfl
  rw [version_of_lines rfl, hinterchanges, List.map_singleton, InterchangeVersion.of, hnames,
    List.mergeSort_singleton]

theorem text_apart_ne : (Network.ofEdits apart).feed.version.text ≠
    (Network.ofEdits early).feed.version.text := by
  rw [version_apart, version_early]
  intro h
  exact absurd (String.ofList_injective h) (by decide +kernel)

theorem directChanges_apart :
    numbering.directChanges (Network.ofEdits apart).interchanges = .ok [] :=
  rfl

section Tables

variable {t t' : Connections}
  (ht : Connections.build (Network.ofEdits apart).source (Network.ofEdits apart).interchanges =
    .ok t)
  (ht' : Connections.build (Network.ofEdits early).source (Network.ofEdits early).interchanges =
    .ok t')
include ht ht'

/-- The lines are numbered alike. -/
theorem numbering_eq : t.numbering = numbering ∧ t'.numbering = numbering :=
  ⟨Except.ok.inj ((Connections.isBuilt_of_build ht).1.symm.trans (build_numbering rfl)),
    Except.ok.inj ((Connections.isBuilt_of_build ht').1.symm.trans (build_numbering rfl))⟩

theorem restoreNumbering_records :
    Session.restoreNumbering (Network.ofEdits early).source t.numbering.records =
      .ok t'.numbering := by
  obtain ⟨hnumbering, hnumbering'⟩ := numbering_eq ht ht'
  rw [hnumbering, ← hnumbering']
  exact Numbering.restoreNumbering_records (Network.faithful_source (Network.known_ofEdits early))
    (Connections.isBuilt_of_build ht').1

/-- The lines are linked where they meet. -/
theorem records_ne : t.degrees.records ≠ t'.degrees.records := by
  intro heq
  obtain ⟨-, hbuilt⟩ := Connections.isBuilt_of_build ht
  obtain ⟨-, hbuilt'⟩ := Connections.isBuilt_of_build ht'
  obtain ⟨hnumbering, hnumbering'⟩ := numbering_eq ht ht'
  have hlinked := Degrees.linked_iff_of_records_eq hbuilt.kept hbuilt'.kept
    (by rw [hnumbering, hnumbering']) hbuilt.degrees hbuilt'.degrees heq 0 1
  rw [hnumbering, hnumbering', Numbering.Linked, Numbering.Linked,
    ← Numbering.mem_directChanges_iff directChanges_apart,
    ← Numbering.mem_directChanges_iff directChanges_early] at hlinked
  exact absurd (hlinked.mpr ⟨List.mem_cons_self, rfl⟩).1 List.not_mem_nil

end Tables

/-- **A stop that comes late.**  A session is started for the lines without a station in common,
then another one for the lines that meet, and the first one is stopped.  Now the cache is of the
version of the lines that meet, and it holds the tables of those that do not. -/
theorem holds_other_tables :
    let w := World.run ⟨.ofEntries [], []⟩ [.start apart 1, .start early 2, .stop 0 3]
    w.directory.recorded? = some (Network.ofEdits early).feed.version.text ∧
    (Network.ofEdits apart).feed.version.text ≠ (Network.ofEdits early).feed.version.text ∧
    ∃ t t',
      Connections.build (Network.ofEdits apart).source (Network.ofEdits apart).interchanges =
        .ok t ∧
      Connections.build (Network.ofEdits early).source (Network.ofEdits early).interchanges =
        .ok t' ∧
      w.directory.Holds t ∧ t.degrees.records ≠ t'.degrees.records := by
  have hpath : (Directory.ofEntries []).path? = some [] := rfl
  obtain ⟨hsame, hrecorded, s, hplace, hloaded, ht⟩ :=
    World.running_of_start_start Directory.isVacant_empty hpath (by decide) apart (by decide)
      early 1 2
  obtain ⟨t', ht'⟩ := Network.exists_connections (Network.known_ofEdits early) (by decide)
  obtain ⟨hstop, hholds⟩ := (World.holds_of_run Directory.isVacant_empty
    [.start apart 1, .start early 2]).2 0 3 s hplace
  refine ⟨hstop.trans hrecorded, text_apart_ne, s.tables, t', ht, ht',
    (hholds hloaded).resolve_right fun ⟨hbars, _⟩ => ?_, records_ne ht ht'⟩
  rw [hsame] at hbars
  exact absurd hbars (by decide)

end LateStop
end TransitChanges
