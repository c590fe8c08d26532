import TransitChanges.Proofs.Comparing
import TransitChanges.Proofs.Decompositions
import TransitChanges.Proofs.LiveChains

/-!
# Asking for more never makes an answer worse

A query can be widened at four places: more stations to start from, more to arrive at, a longer
window and more modes (`Scope.Within`).  Each of its layers then lets through no less than before.
More calls are made, so more routes pick up and set down, and more stations are available; every
change that could be made can be made still (`Feed.CanChange.of_within`).

What is recorded of two routes does not depend on the query at all.  A wider query therefore tells
no new number for them, but only that the recorded number can be kept where it could not before.

A place with more stations is less often wholly closed.  The exception is the place without any,
which never is; but no route leaves it, so nothing can be worse than its answer.

* `Planner.IsOf.changesBetweenRoutes_le`: two routes in a wider query.
* `Planner.changesBetween_le_of_within`: places in a wider query.
* `SampleCity.wholeDay_le_byTram`: a closed airport in the morning by tram, against two places to
  start from at any time.
-/

namespace TransitChanges

open Calendar Clock

/-! ## Wider scopes -/

/-- Whatever a query asks for, another asks for as well: it is about the same date, its window
encloses that of the first, and it permits every mode that the first does. -/
structure Scope.Within (narrow wide : Scope) : Prop where
  date_eq : narrow.date = wide.date
  start_le : wide.window.start ≤ narrow.window.start
  le_finish : narrow.window.finish ≤ wide.window.finish
  permits {mode : Mode} :
    narrow.modes.contains mode = true → wide.modes.contains mode = true

theorem Scope.Within.refl (scope : Scope) : scope.Within scope :=
  ⟨rfl, Time.le_refl _, Time.le_refl _, id⟩

section Within

variable {scope scope' : Scope} (h : scope.Within scope')
include h

/-- A window that meets the narrower query meets the wider one. -/
theorem Scope.Within.overlaps {w : Window} (hw : w.overlaps scope.window = true) :
    w.overlaps scope'.window = true := by
  rw [Window.overlaps, Bool.and_eq_true, decide_eq_true_eq, decide_eq_true_eq] at hw ⊢
  exact ⟨Time.le_trans hw.1 h.le_finish, Time.le_trans h.start_le hw.2⟩

theorem Call.isMade_of_within {c : Call} (hc : c.isMade scope = true) :
    c.isMade scope' = true := by
  rw [Call.isMade, Bool.and_eq_true, Bool.and_eq_true] at hc ⊢
  obtain ⟨⟨hwindow, hmode⟩, hruns⟩ := hc
  rw [h.date_eq] at hruns
  exact ⟨⟨h.overlaps hwindow, h.permits hmode⟩, hruns⟩

theorem Route.isOffered_of_within {r : Route}
    (hr : r.isOffered scope.date scope.modes = true) :
    r.isOffered scope'.date scope'.modes = true := by
  rw [Route.isOffered, Bool.and_eq_true] at hr ⊢
  rw [← h.date_eq]
  exact ⟨hr.1, h.permits hr.2⟩

/-- A station that is available to the narrower query is available to the wider one. -/
theorem Network.isAvailable_of_within {net : Network} {station : StationId}
    (hs : net.isAvailable station scope = true) : net.isAvailable station scope' = true := by
  rw [Network.isAvailable_iff] at hs ⊢
  obtain ⟨hopen, c, hc, hstation, hmade⟩ := hs
  rw [h.date_eq] at hopen
  exact ⟨hopen, c, hc, hstation, Call.isMade_of_within h hmade⟩

/-! ## Changes in a wider query -/

/-- A change that can be made within the narrower query can be made within the wider one. -/
theorem Feed.CanChange.of_within {net : Network} {first second : Route}
    (hchange : net.feed.CanChange scope first second) :
    net.feed.CanChange scope' first second := by
  obtain ⟨hfirst, hsecond, hne, i, hi, hdropoff, hpickup, hoperates⟩ := hchange
  refine ⟨Route.isOffered_of_within h hfirst, Route.isOffered_of_within h hsecond, hne, i, hi,
    hdropoff, hpickup, ?_⟩
  have havailable := (net.answersFor_service scope i).symm.trans hoperates
  exact (net.answersFor_service scope' i).trans (Network.isAvailable_of_within h havailable)

theorem Feed.Planned.of_within {net : Network} {start first second : Route}
    (hplanned : net.feed.Planned scope start first second) :
    net.feed.Planned scope' start first second :=
  ⟨hplanned.1.of_within h, hplanned.2⟩

/-- **Two routes need no more changes in a wider query.** -/
theorem Planner.IsOf.changesBetweenRoutes_le {p : Planner} {net : Network} (hp : p.IsOf net)
    {a b : Route} (ha : net.Holds a) (hb : net.Holds b) {c c' : Changes}
    (hc : p.changesBetweenRoutes a.id b.id scope = .ok c)
    (hc' : p.changesBetweenRoutes a.id b.id scope' = .ok c') : c' ≤ c := by
  cases c with
  | unreachable => exact Changes.le_unreachable c'
  | exactly d =>
    obtain ⟨i, hi⟩ := hp.exists_index ha
    obtain ⟨j, hj⟩ := hp.exists_index hb
    obtain ⟨narrow, hnarrow, hexactly⟩ := hp.exists_changesBetweenRoutes_of_planned hi hj scope
    obtain ⟨wide, hwide, hexactly'⟩ := hp.exists_changesBetweenRoutes_of_planned hi hj scope'
    rw [hc, Except.ok.injEq] at hnarrow
    rw [hc', Except.ok.injEq] at hwide
    -- the recorded number is the same, and the chain that keeps it is still there
    obtain ⟨hdegree, hchain⟩ := (hexactly d).mp hnarrow.symm
    have hkept := (hexactly' d).mpr ⟨hdegree, hchain.mono fun hstep => hstep.of_within h⟩
    rw [hwide, hkept]
    exact Changes.le_refl _

end Within

/-! ## Larger places -/

namespace Network

variable {net : Network} {stations stations' : StationSet}

/-- A query finds no fewer routes at more stations and in a wider scope. -/
theorem mem_routesAtAny_of_within (hnet : net.Settled) {scope scope' : Scope}
    (h : scope.Within scope') (hstations : ∀ s ∈ stations, s ∈ stations')
    {wanted : Calling → Bool} {r : Route} (hr : r ∈ net.routesAtAny wanted stations scope) :
    r ∈ net.routesAtAny wanted stations' scope' := by
  obtain ⟨c, hc, hstation, hwanted, hmade, rfl⟩ := exists_call_of_mem_routesAtAny hr
  rw [Std.TreeSet.mem_toList] at hstation
  exact mem_routesAtAny hnet hc (Std.TreeSet.mem_toList.mpr (hstations _ hstation)) hwanted
    (Call.isMade_of_within h hmade)

theorem exists_mem_of_routesAtAny {wanted : Calling → Bool} {scope : Scope}
    (h : net.routesAtAny wanted stations scope ≠ []) : ∃ s, s ∈ stations := by
  obtain ⟨r, hr⟩ := List.exists_mem_of_ne_nil _ h
  obtain ⟨c, -, hstation, -⟩ := exists_call_of_mem_routesAtAny hr
  exact ⟨c.station, Std.TreeSet.mem_toList.mp hstation⟩

/-- A place that has a station costs no more for being closed when it has more stations. -/
theorem closedEnd_le_of_subset (hstations : ∀ s ∈ stations, s ∈ stations')
    (hsome : ∃ s, s ∈ stations) (date : Date) :
    net.closedEnd stations' date ≤ net.closedEnd stations date := by
  unfold closedEnd
  split
  · next hclosed =>
    rw [if_pos ⟨hsome, fun s hs => hclosed.2 s (hstations s hs)⟩]
  · exact Nat.zero_le _

end Network

namespace Planner

/-- **Asking for more never makes an answer worse.**  Over the tables of a network, a query with no
fewer stations at either end, a window that is no shorter and no fewer modes is answered by no more
changes, those for closed places included. -/
theorem changesBetween_le_of_within {edits : List Edit} (honce : Edit.AddOnce edits)
    {tables : Connections}
    (htables : Connections.build (Network.ofEdits edits).source
      (Network.ofEdits edits).interchanges = .ok tables)
    {starts starts' destinations destinations' : StationSet}
    (hstarts : ∀ s ∈ starts, s ∈ starts') (hdestinations : ∀ s ∈ destinations, s ∈ destinations')
    {scope scope' : Scope} (hscope : scope.Within scope') :
    ∃ c c',
      (Planner.mk tables (Network.ofEdits edits).service).changesBetween starts destinations
        scope = .ok c ∧
      (Planner.mk tables (Network.ofEdits edits).service).changesBetween starts' destinations'
        scope' = .ok c' ∧
      c' ≤ c := by
  have h := Planner.isOf_of_build honce htables
  have htold := toldByPairs_of_isBuilt h.known h.numbering h.built h.service
  have hkept {wanted : Calling → Bool} {stations stations' : StationSet}
      (hstations : ∀ s ∈ stations, s ∈ stations') :
      ((Network.ofEdits edits).routesAtAny wanted stations scope).map Route.id ⊆
        ((Network.ofEdits edits).routesAtAny wanted stations' scope').map Route.id :=
    List.map_subset _ fun r hr => Network.mem_routesAtAny_of_within h.settled hscope hstations hr
  refine htold.exists_changesBetween_le htold ?_ (hkept hstarts) (hkept hdestinations) ?_ ?_
  · rintro ⟨a, ha, b, hb, hnear⟩
    exact ⟨a, hstarts a ha, b, hdestinations b hb, hnear⟩
  · intro r hr s hs c c' hc hc'
    exact h.changesBetweenRoutes_le hscope (Network.holds_of_mem_routesAtAny h.settled hr)
      (Network.holds_of_mem_routesAtAny h.settled hs) hc hc'
  · intro hpickups hdropoffs
    rw [← hscope.date_eq]
    exact ⟨Network.closedEnd_le_of_subset hstarts (Network.exists_mem_of_routesAtAny hpickups) _,
      Network.closedEnd_le_of_subset hdestinations (Network.exists_mem_of_routesAtAny hdropoffs) _⟩

end Planner

/-! ## The city without its airport -/

namespace SampleCity

/-- The records of the city, and that its airport is closed on the date asked about. -/
def withoutAirport : List Edit :=
  routes.map .route ++ stops ++ [.close "AIRPORT" (.single date)]

/-- How many changes apart the lines of the city are. -/
def cityDegrees : Degrees :=
  (Degrees.build cityNumbering cityNumbering.sharedDates network.interchanges).toOption.get rfl

/-- The tables of the city, to which a closed airport makes no difference. -/
def cityTables : Connections where
  degrees := cityDegrees
  stations := (ChangeStations.build cityNumbering network.interchanges).toOption.get rfl
  vias := .build cityNumbering.sharedDates cityDegrees

theorem build_withoutAirport : Connections.build (Network.ofEdits withoutAirport).source
    (Network.ofEdits withoutAirport).interchanges = .ok cityTables := by
  have hsource : (Network.ofEdits withoutAirport).source = network.source := rfl
  rw [Connections.build, hsource, build_city]
  rfl

/-- The line from the airport. -/
def pink : Route := ⟨named "PINK", "Airport - Victoria", .tram, year, .all⟩

/-- The line that both others meet. -/
def blue : Route := ⟨named "BLUE", "Altrincham - Bury", .tram, year, .all⟩

/-- The line to the place asked for. -/
def green : Route := ⟨named "GREEN", "Eccles - Ashton", .tram, year, .all⟩

/-- The morning asked about, by tram. -/
def byTram : Scope := ⟨date, morning, .ofList [.tram]⟩

/-- The whole day, in any mode. -/
def wholeDay : Scope := ⟨date, .allDay, .all⟩

theorem byTram_within_wholeDay : byTram.Within wholeDay :=
  ⟨rfl, by decide, by decide, fun _ => rfl⟩

theorem canChange_pink_blue :
    (Network.ofEdits withoutAirport).feed.CanChange byTram pink blue := by
  apply Feed.canChange_of_mem (i := ⟨named "CORNBROOK", [pink, blue], [pink, blue]⟩)
    (c := ⟨named "CORNBROOK", blue, .both, .allDay⟩) <;> decide

theorem canChange_blue_green :
    (Network.ofEdits withoutAirport).feed.CanChange byTram blue green := by
  apply Feed.canChange_of_mem
    (i := ⟨named "DEANSGATE", [blue, green, routes[3]], [blue, green, routes[3]]⟩)
    (c := ⟨named "DEANSGATE", blue, .both, .allDay⟩) <;> decide

theorem isOf_withoutAirport :
    (Planner.mk cityTables (Network.ofEdits withoutAirport).service).IsOf
      (Network.ofEdits withoutAirport) :=
  Planner.isOf_of_build (by decide) build_withoutAirport

theorem toldByPairs_withoutAirport :
    (Planner.mk cityTables (Network.ofEdits withoutAirport).service).ToldByPairs
      (Network.ofEdits withoutAirport) :=
  Planner.toldByPairs_of_isBuilt isOf_withoutAirport.known isOf_withoutAirport.numbering
    isOf_withoutAirport.built isOf_withoutAirport.service

/-- Whoever asks for no less than the trams of the morning is told how many changes apart the lines
are. -/
theorem changes_to_green {scope : Scope} (hscope : byTram.Within scope) :
    let planner := Planner.mk cityTables (Network.ofEdits withoutAirport).service
    planner.changesBetweenRoutes pink.id green.id scope = .ok (.exactly 2) ∧
      planner.changesBetweenRoutes blue.id green.id scope = .ok (.exactly 1) := by
  have hdate : scope.date ≠ .last := by
    rw [← hscope.date_eq]
    decide
  have hblue := Chain.one_iff.mpr (canChange_blue_green.of_within hscope)
  have hpink := (Chain.one_iff.mpr (canChange_pink_blue.of_within hscope)).tail
    (canChange_blue_green.of_within hscope)
  have h := isOf_withoutAirport
  exact ⟨h.changesBetweenRoutes_of_chain (by decide) (by decide) hdate (by rfl) hpink,
    h.changesBetweenRoutes_of_chain (by decide) (by decide) hdate (by rfl) hblue⟩

theorem eq_pink_of_mem_pickupsAt {scope : Scope} {r : Route}
    (hr : r ∈ (Network.ofEdits withoutAirport).service.pickupsAt (.ofList [named "AIRPORT"])
      scope) : r = pink :=
  Network.of_mem_routesAtAny (motive := (· = pink)) (by decide) hr

theorem eq_pink_or_blue_of_mem_pickupsAt {scope : Scope} {r : Route}
    (hr : r ∈ (Network.ofEdits withoutAirport).service.pickupsAt
      (.ofList [named "AIRPORT", named "ALTRINCHAM"]) scope) : r = pink ∨ r = blue :=
  Network.of_mem_routesAtAny (motive := fun r => r = pink ∨ r = blue) (by decide) hr

theorem eq_green_of_mem_dropoffsAt {scope : Scope} {r : Route}
    (hr : r ∈ (Network.ofEdits withoutAirport).service.dropoffsAt (.ofList [goal]) scope) :
    r = green :=
  Network.of_mem_routesAtAny (motive := (· = green)) (by decide) hr

theorem green_mem_dropoffsAt {scope : Scope} (hscope : byTram.Within scope) :
    green ∈ (Network.ofEdits withoutAirport).service.dropoffsAt (.ofList [goal]) scope :=
  Network.mem_routesAtAny isOf_withoutAirport.settled (c := ⟨goal, green, .dropoffOnly, .allDay⟩)
    (by decide) (by decide) (by decide) (Call.isMade_of_within hscope (by decide))

/-- In the morning, two changes by tram from the airport, and one because it is closed. -/
theorem changes_byTram :
    (Planner.mk cityTables (Network.ofEdits withoutAirport).service).changesBetween
      (.ofList [named "AIRPORT"]) (.ofList [goal]) byTram = .ok (.exactly 3) := by
  obtain ⟨hpink, -⟩ := changes_to_green (.refl byTram)
  have hpickup : pink ∈ (Network.ofEdits withoutAirport).service.pickupsAt
      (.ofList [named "AIRPORT"]) byTram :=
    Network.mem_routesAtAny isOf_withoutAirport.settled
      (c := ⟨named "AIRPORT", pink, .pickupOnly, .allDay⟩)
      (by decide) (by decide) (by decide) (by decide)
  refine toldByPairs_withoutAirport.changesBetween_eq_of_least (by decide) hpickup
    (green_mem_dropoffsAt (.refl byTram)) hpink ?_
  intro r hr s hs c hc
  rw [eq_pink_of_mem_pickupsAt hr, eq_green_of_mem_dropoffsAt hs, hpink, Except.ok.injEq] at hc
  rw [hc]
  exact Changes.le_refl c

/-- At any time and in any mode, one change from another place, which is not closed. -/
theorem changes_wholeDay :
    (Planner.mk cityTables (Network.ofEdits withoutAirport).service).changesBetween
      (.ofList [named "AIRPORT", named "ALTRINCHAM"]) (.ofList [goal]) wholeDay =
        .ok (.exactly 1) := by
  obtain ⟨hpink, hblue⟩ := changes_to_green byTram_within_wholeDay
  have hpickup : blue ∈ (Network.ofEdits withoutAirport).service.pickupsAt
      (.ofList [named "AIRPORT", named "ALTRINCHAM"]) wholeDay :=
    Network.mem_routesAtAny isOf_withoutAirport.settled
      (c := ⟨named "ALTRINCHAM", blue, .pickupOnly, .allDay⟩)
      (by decide) (by decide) (by decide) (by decide)
  refine toldByPairs_withoutAirport.changesBetween_eq_of_least (by decide) hpickup
    (green_mem_dropoffsAt byTram_within_wholeDay) hblue ?_
  intro r hr s hs c hc
  rw [eq_green_of_mem_dropoffsAt hs] at hc
  rcases eq_pink_or_blue_of_mem_pickupsAt hr with rfl | rfl
  · rw [hpink, Except.ok.injEq] at hc
    rw [← hc]
    decide
  · rw [hblue, Except.ok.injEq] at hc
    rw [hc]
    exact Changes.le_refl c

/-- The airport is two changes from the place asked for, and a third because it is closed.  Who
might start elsewhere, at any time and in any mode, gets by with one. -/
theorem wholeDay_le_byTram :
    let planner := Planner.mk cityTables (Network.ofEdits withoutAirport).service
    planner.changesBetween (.ofList [named "AIRPORT"]) (.ofList [goal]) byTram =
        .ok (.exactly 3) ∧
      planner.changesBetween (.ofList [named "AIRPORT", named "ALTRINCHAM"]) (.ofList [goal])
        wholeDay = .ok (.exactly 1) ∧
      Changes.exactly 1 ≤ .exactly 3 := by
  have honce : Edit.AddOnce withoutAirport := by decide
  have hstarts : ∀ s ∈ StationSet.ofList [named "AIRPORT"],
      s ∈ StationSet.ofList [named "AIRPORT", named "ALTRINCHAM"] := by
    intro s hs
    rw [StationSet.ofList, Std.TreeSet.mem_ofList, List.contains_iff_mem] at hs ⊢
    exact List.mem_cons.mpr (.inl (List.mem_singleton.mp hs))
  obtain ⟨c, c', hc, hc', hle⟩ := Planner.changesBetween_le_of_within honce build_withoutAirport
    hstarts (fun _ hs => hs) byTram_within_wholeDay
  rw [changes_byTram, Except.ok.injEq] at hc
  rw [changes_wholeDay, Except.ok.injEq] at hc'
  subst hc hc'
  exact ⟨changes_byTram, changes_wholeDay, hle⟩

end SampleCity
end TransitChanges
