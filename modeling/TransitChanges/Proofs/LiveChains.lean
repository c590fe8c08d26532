import TransitChanges.Proofs.CommonDates
import TransitChanges.Proofs.NetworkTables
import TransitChanges.SampleCity

/-!
# Chains of changes on the day

What the tables record was found without a date; what a query answers is about one.  Here both are
put into the words of a network on a date: one *can change* from a route to another if both run then
in a permitted mode and some operating interchange has the one setting down and the other picking
up.

Tables ask more of a change than that, namely that the two routes share a date with each other and
with the route one started from (`Planned`).  Routes that run on one date do share it, unless it is
the calendar's last, which no walk through a range of dates meets (`sharesDateWith_of_runsOn`).

Indexes and routes are two descriptions of one chain: the steps of the one are followed by those of
the other (`Chain.simulate`), and the gate, which tests each route against the one started from,
sees to it that every route on the way runs.

* `chain_open_iff`: what the tables find open is a chain of planned changes.
* `chain_planned_iff`: on all dates but the last these are the changes one can make.
-/

namespace TransitChanges

open Bits Calendar

/-! ## Changes on the day -/

namespace Feed

/-- One can change from a route to another: both run on the date in a permitted mode, and at an
interchange that operates the one sets down and the other picks up. -/
def CanChange (feed : Feed) (scope : Scope) (first second : Route) : Prop :=
  first.isOffered scope.date scope.modes = true ∧
    second.isOffered scope.date scope.modes = true ∧ first.id ≠ second.id ∧
    ∃ i ∈ feed.interchanges, first ∈ i.dropoffs ∧ second ∈ i.pickups ∧
      feed.service.isOperating scope i = true

theorem canChange_of_mem {net : Network} {scope : Scope} {first second : Route}
    (hfirst : first.isOffered scope.date scope.modes = true)
    (hsecond : second.isOffered scope.date scope.modes = true) (hne : first.id ≠ second.id)
    {i : Interchange} (hi : i ∈ net.interchanges) (hdropoff : first ∈ i.dropoffs)
    (hpickup : second ∈ i.pickups) {c : Call} (hc : c ∈ net.calls) (hstation : c.station = i.station)
    (hmade : c.isMade scope = true) (hopen : net.isClosed i.station scope.date = false) :
    net.feed.CanChange scope first second := by
  refine ⟨hfirst, hsecond, hne, i, hi, hdropoff, hpickup, ?_⟩
  show net.service.isOperating scope i = true
  rw [net.answersFor_service scope i, ← hstation]
  rw [← hstation] at hopen
  exact Network.isAvailable_of_mem hc hmade hopen

/-- A change that tables provide for: the routes share a date, and so does the second with the route
one started from. -/
def Planned (feed : Feed) (scope : Scope) (start first second : Route) : Prop :=
  feed.CanChange scope first second ∧ first.sharesDateWith second = true ∧
    (start = second ∨ start.sharesDateWith second = true)

/-- On all dates but the calendar's last, chains of planned changes are those of the changes one can
make. -/
theorem chain_planned_iff {feed : Feed} {scope : Scope} (hdate : scope.date ≠ .last)
    {a b : Route} {d : Nat} :
    Chain (feed.Planned scope a) a d b ↔ Chain (feed.CanChange scope) a d b := by
  have hruns {r : Route} (hoffered : r.isOffered scope.date scope.modes = true) :
      r.runsOn scope.date = true := by
    rw [Route.isOffered, Bool.and_eq_true] at hoffered
    exact hoffered.1
  constructor
  · exact fun hchain => hchain.mono fun hplanned => hplanned.1
  · intro hchain
    rcases hchain.eq_or_exists_step with ⟨rfl, rfl⟩ | ⟨s, hfirst⟩
    · exact .refl
    · have hstart := hruns hfirst.1
      refine hchain.mono fun {x y} hchange => ⟨hchange, ?_, .inr ?_⟩
      · exact Route.sharesDateWith_of_runsOn (hruns hchange.1) (hruns hchange.2.1) hdate
      · exact Route.sharesDateWith_of_runsOn hstart (hruns hchange.2.1) hdate

end Feed

namespace Planner.IsOf

variable {p : Planner} {net : Network} (h : p.IsOf net) {start i j d : Nat} {a r s : Route}
  (ha : p.tables.numbering.routes[start]? = some a)

include h ha in
/-- From a route that runs, a step of an open chain is a planned change. -/
theorem open_iff_planned {scope : Scope} (hi : p.tables.numbering.routes[i]? = some r)
    (hj : p.tables.numbering.routes[j]? = some s)
    (hstart : a.isOffered scope.date scope.modes = true)
    (hoffered : r.isOffered scope.date scope.modes = true) :
    (p.enquiry scope).Open net.interchanges start i j ↔ net.feed.Planned scope a r s := by
  have hlink (x : Interchange) := h.linkBy_iff hi hj ha hstart hoffered (x := x)
  have hshared := h.sharesDates_iff ha hj
  constructor
  · rintro ⟨x, hstep, hoperates⟩
    obtain ⟨hx, hdropoff, hpickup, hjoins, hoffered', hshares⟩ := (hlink x).mp hstep
    obtain ⟨hne, hdates⟩ := Interchange.joins_iff.mp hjoins
    have hservice : net.service.isOperating scope x = true := by
      rw [← h.service]
      exact hoperates
    refine ⟨⟨hoffered, hoffered', hne, x, hx, hdropoff, hpickup, hservice⟩, ?_,
      hshared.mp hshares⟩
    rw [Route.sharesDateWith_comm]
    exact hdates
  · rintro ⟨⟨-, hoffered', hne, x, hx, hdropoff, hpickup, hservice⟩, hdates, hshares⟩
    rw [Route.sharesDateWith_comm] at hdates
    have hjoins := Interchange.joins_iff.mpr ⟨hne, hdates⟩
    refine ⟨x, (hlink x).mpr ⟨hx, hdropoff, hpickup, hjoins, hoffered', hshared.mpr hshares⟩, ?_⟩
    show p.service.isOperating scope x = true
    rw [h.service]
    exact hservice

include h ha in
/-- **What the tables find open is a chain of planned changes.** -/
theorem chain_open_iff {scope : Scope} {b : Route} (hb : p.tables.numbering.routes[j]? = some b) :
    Chain ((p.enquiry scope).Open net.interchanges start) start d j ↔
      Chain (net.feed.Planned scope a) a d b := by
  by_cases hstart : a.isOffered scope.date scope.modes = true
  · constructor
    · intro hchain
      have hstep (x y : Nat) (r : Route)
          (hopen : (p.enquiry scope).Open net.interchanges start x y)
          (hr : p.tables.numbering.routes[x]? = some r ∧
            r.isOffered scope.date scope.modes = true) :
          ∃ s, (p.tables.numbering.routes[y]? = some s ∧
            s.isOffered scope.date scope.modes = true) ∧ net.feed.Planned scope a r s := by
        obtain ⟨-, ⟨hlinked, -⟩, -⟩ := id hopen
        have hy := Array.getElem?_eq_getElem (Numbering.lt_size_of_meet h.built.kept hlinked.1).2
        have hplanned := (h.open_iff_planned ha hr.1 hy hstart hr.2).mp hopen
        exact ⟨_, ⟨hy, hplanned.1.2.1⟩, hplanned⟩
      obtain ⟨b', ⟨hb', -⟩, hchain'⟩ := hchain.simulate hstep ⟨ha, hstart⟩
      rw [hb] at hb'
      rw [Option.some.inj hb']
      exact hchain'
    · intro hchain
      have hstep (r s : Route) (x : Nat) (hplanned : net.feed.Planned scope a r s)
          (hr : p.tables.numbering.routes[x]? = some r) :
          ∃ y : Nat, p.tables.numbering.routes[y]? = some s ∧
            (p.enquiry scope).Open net.interchanges start x y := by
        obtain ⟨z, hz, -, hpickup, -⟩ := hplanned.1.2.2.2
        obtain ⟨y, hy⟩ := h.exists_index (h.holds_of_mem hz (.inr hpickup))
        exact ⟨y, hy, (h.open_iff_planned ha hr hy hstart hplanned.1.1).mpr hplanned⟩
      obtain ⟨j', hj', hchain'⟩ := hchain.simulate hstep ha
      rw [h.eq_of_getElem? hj' hb] at hchain'
      exact hchain'
  · -- a route that does not run is left by no change, so either chain is empty
    constructor
    · intro hchain
      rcases hchain.eq_or_exists_step with ⟨rfl, rfl⟩ | ⟨y, x, ⟨hlinked, -, hgate, -⟩, -⟩
      · rw [ha] at hb
        rw [Option.some.inj hb]
        exact .refl
      · have hy := Array.getElem?_eq_getElem (Numbering.lt_size_of_meet h.built.kept hlinked.1).2
        exact absurd ((get_gate_iff ha hy scope).mp hgate).1 hstart
    · intro hchain
      rcases hchain.eq_or_exists_step with ⟨rfl, rfl⟩ | ⟨s, hplanned⟩
      · rw [h.eq_of_getElem? hb ha]
        exact .refl
      · exact absurd hplanned.1.1 hstart

/-! ## The changes between two routes -/

variable {b : Route} (hb : p.tables.numbering.routes[j]? = some b)

include h ha hb in
theorem degreeBetween_eq : p.tables.degrees.degreeBetween a.id b.id =
    .ok (p.tables.degrees.degreeOf ⟨start, j⟩) := by
  have hstart := (h.indexOf_eq_ok_iff (h.holds_of_getElem? ha)).mpr ha
  have hj := (h.indexOf_eq_ok_iff (h.holds_of_getElem? hb)).mpr hb
  have hpair : p.tables.degrees.numbering.pairOf a.id b.id = .ok ⟨start, j⟩ :=
    Numbering.pairOf_eq_ok hstart hj
  rw [Degrees.degreeBetween, hpair]
  rfl

include h ha hb in
/-- One change is recorded where the routes meet. -/
theorem degreeBetween_eq_one_iff : p.tables.degrees.degreeBetween a.id b.id = .ok (some 1) ↔
    ∃ x ∈ net.interchanges, a ∈ x.dropoffs ∧ b ∈ x.pickups ∧ Interchange.joins a b = true := by
  have hdegree : p.tables.degrees.degreeOf ⟨start, j⟩ = some 1 ↔
      p.tables.numbering.Linked net.interchanges start j := by
    rw [Degrees.degreeOf_eq_some_iff h.built.kept h.built.degrees,
      ← Degrees.get_level_one_iff h.built.kept h.built.degrees,
      Degrees.get_level_iff h.built.kept h.built.degrees (Nat.le_refl 1) (by decide)]
    exact and_iff_right (by decide)
  rw [h.degreeBetween_eq ha hb, Except.ok.injEq, hdegree, h.linked_iff ha hb]

include h ha hb in
theorem changesBetweenRoutes_eq (scope : Scope) : p.changesBetweenRoutes a.id b.id scope =
    (p.enquiry scope).changesNow ⟨start, j⟩ := by
  have hstart := (h.indexOf_eq_ok_iff (h.holds_of_getElem? ha)).mpr ha
  have hj := (h.indexOf_eq_ok_iff (h.holds_of_getElem? hb)).mpr hb
  exact changesBetweenRoutes_eq_changesNow h.built
    (Network.answersAt_of_eq_service h.service scope) hstart hj

include h ha hb in
/-- Two routes are the recorded number of changes apart if there is a planned chain of so many, and
else one cannot get from the one to the other. -/
theorem exists_changesBetweenRoutes_of_planned (scope : Scope) :
    ∃ c, p.changesBetweenRoutes a.id b.id scope = .ok c ∧ ∀ d, c = .exactly d ↔
      p.tables.degrees.degreeBetween a.id b.id = .ok (some d) ∧
        Chain (net.feed.Planned scope a) a d b := by
  obtain ⟨c, hc, hexactly⟩ := Enquiry.exists_changesNow (e := p.enquiry scope) h.built
    (h.served scope) start j
  refine ⟨c, ?_, fun d => ?_⟩
  · rw [h.changesBetweenRoutes_eq ha hb]
    exact hc
  · rw [hexactly, h.degreeBetween_eq ha hb, Except.ok.injEq, h.chain_open_iff ha hb]
    rfl

include h in
/-- Routes connected by a chain of changes as long as the tables record are so many changes apart. -/
theorem changesBetweenRoutes_of_chain (hheld : net.Holds a) (hheld' : net.Holds b) {scope : Scope}
    (hdate : scope.date ≠ .last) {d : Nat}
    (hdegree : p.tables.degrees.degreeBetween a.id b.id = .ok (some d))
    (hchain : Chain (net.feed.CanChange scope) a d b) :
    p.changesBetweenRoutes a.id b.id scope = .ok (.exactly d) := by
  obtain ⟨i, hi⟩ := h.exists_index hheld
  obtain ⟨j, hj⟩ := h.exists_index hheld'
  obtain ⟨c, hc, hexactly⟩ := h.exists_changesBetweenRoutes_of_planned hi hj scope
  rw [hc, (hexactly d).mpr ⟨hdegree, (Feed.chain_planned_iff hdate).mpr hchain⟩]

include h ha hb in
/-- The recorded number of changes is at most that of any chain that can be made. -/
theorem exists_degree_le {scope : Scope} {k : Nat} (hk : k ≤ maxDegree)
    (hchain : Chain (net.feed.Planned scope a) a k b) :
    ∃ d ≤ k, p.tables.degrees.degreeBetween a.id b.id = .ok (some d) := by
  have hcounts : k ∈ p.tables.numbering.changeCounts
      (p.tables.numbering.Linked net.interchanges) start j := by
    refine ((h.chain_open_iff ha hb).mpr hchain).mono fun hopen => ?_
    obtain ⟨x, hstep, -⟩ := hopen
    exact Connections.LinkBy.step ⟨x, hstep⟩
  obtain ⟨d, hd, hleast⟩ := Chain.exists_isLeast hcounts
  refine ⟨d, hd, ?_⟩
  rw [h.degreeBetween_eq ha hb, Except.ok.injEq]
  exact (Degrees.degreeOf_eq_some_iff h.built.kept h.built.degrees).mpr ⟨by omega, hleast⟩

end Planner.IsOf

/-- **The changes between two routes are the least number by which one can get from the one to the
other on the day**, if the tables record that number, and else they cannot be told.  No chain of so
many changes as the tables go up to is shorter than what they record.  The calendar's last date is
left out. -/
theorem Planner.changesBetweenRoutes_isLeast {edits : List Edit} (honce : Edit.AddOnce edits)
    {tables : Connections}
    (htables : Connections.build (Network.ofEdits edits).source
      (Network.ofEdits edits).interchanges = .ok tables)
    {a b : Route} (ha : (Network.ofEdits edits).Holds a) (hb : (Network.ofEdits edits).Holds b)
    {scope : Scope} (hdate : scope.date ≠ .last) :
    (∀ k ≤ maxDegree, Chain ((Network.ofEdits edits).feed.CanChange scope) a k b →
      ∃ d ≤ k, tables.degrees.degreeBetween a.id b.id = .ok (some d)) ∧
    ∃ c, (Planner.mk tables (Network.ofEdits edits).service).changesBetweenRoutes a.id b.id scope =
        .ok c ∧
      (∀ d, c = .exactly d ↔ tables.degrees.degreeBetween a.id b.id = .ok (some d) ∧
        Chain ((Network.ofEdits edits).feed.CanChange scope) a d b) ∧
      ∀ d, c = .exactly d → d ≤ maxDegree ∧
        IsLeast (Chain.lengths ((Network.ofEdits edits).feed.CanChange scope) a b) d := by
  have h := Planner.isOf_of_build honce htables
  obtain ⟨i, hi⟩ := h.exists_index ha
  obtain ⟨j, hj⟩ := h.exists_index hb
  have hshortest (k : Nat) (hk : k ≤ maxDegree)
      (hchain : Chain ((Network.ofEdits edits).feed.CanChange scope) a k b) :
      ∃ d ≤ k, tables.degrees.degreeBetween a.id b.id = .ok (some d) :=
    h.exists_degree_le hi hj hk ((Feed.chain_planned_iff hdate).mpr hchain)
  obtain ⟨c, hc, hexactly⟩ := h.exists_changesBetweenRoutes_of_planned hi hj scope
  simp only [Feed.chain_planned_iff hdate] at hexactly
  refine ⟨hshortest, c, hc, hexactly, fun d hd => ?_⟩
  obtain ⟨hdegree, hchain⟩ := (hexactly d).mp hd
  have hdegree' := hdegree
  rw [h.degreeBetween_eq hi hj, Except.ok.injEq,
    Degrees.degreeOf_eq_some_iff h.built.kept h.built.degrees] at hdegree'
  refine ⟨hdegree'.1, Chain.isLeast_iff.mpr ⟨hchain, fun k hk hshort => ?_⟩⟩
  have hkle : k ≤ maxDegree := by
    have hdle := hdegree'.1
    omega
  obtain ⟨d', hd', hrecorded⟩ := hshortest k hkle hshort
  rw [hdegree] at hrecorded
  cases hrecorded
  omega

/-! ## A closed interchange and a detour -/

namespace Detour

open SampleCity

/-- A tram line that runs all year. -/
def line (name : String) : Route :=
  ⟨named name, name, .tram, year, .all⟩

/-- The first and the last of three lines meet at `S`, and both meet the second elsewhere.  On the
date of the sample `S` is closed. -/
def edits : List Edit := [
  .route (line "R1"),
  .route (line "R2"),
  .route (line "R3"),
  .pickupOnly "P" "R1",
  .stop "S" "R1",
  .stop "S" "R3",
  .stop "T" "R1",
  .stop "T" "R2",
  .stop "U" "R2",
  .stop "U" "R3",
  .dropoffOnly "Q" "R3",
  .close "S" (.single date)]

/-- The date of the sample, at any time and in any mode. -/
def scope : Scope := ⟨date, .allDay, .all⟩

/-- The interchange where two lines meet. -/
def meeting (station first second : String) : Interchange :=
  ⟨named station, [line first, line second], [line first, line second]⟩

theorem exists_tables : ∃ tables, Connections.build (Network.ofEdits edits).source
    (Network.ofEdits edits).interchanges = .ok tables :=
  Network.exists_connections (Network.known_ofEdits edits) (by decide)

/-- One can change at `T` from the first line to the second. -/
theorem canChange_first : (Network.ofEdits edits).feed.CanChange scope (line "R1") (line "R2") := by
  apply Feed.canChange_of_mem (i := meeting "T" "R1" "R2")
    (c := ⟨named "T", line "R1", .both, .allDay⟩) <;> decide

/-- One can change at `U` from the second line to the last. -/
theorem canChange_second :
    (Network.ofEdits edits).feed.CanChange scope (line "R2") (line "R3") := by
  apply Feed.canChange_of_mem (i := meeting "U" "R2" "R3")
    (c := ⟨named "U", line "R2", .both, .allDay⟩) <;> decide

/-- The first line is one change from the second. -/
theorem first_to_second : ∃ tables, Connections.build (Network.ofEdits edits).source
      (Network.ofEdits edits).interchanges = .ok tables ∧
    (Planner.mk tables (Network.ofEdits edits).service).changesBetweenRoutes (line "R1").id
      (line "R2").id scope = .ok (.exactly 1) := by
  obtain ⟨tables, htables⟩ := exists_tables
  have honce : Edit.AddOnce edits := by decide
  have hfirst : (Network.ofEdits edits).Holds (line "R1") := by decide
  have hsecond : (Network.ofEdits edits).Holds (line "R2") := by decide
  have hdate : scope.date ≠ .last := by decide
  obtain ⟨-, c, hc, hexactly, -⟩ :=
    Planner.changesBetweenRoutes_isLeast honce htables hfirst hsecond hdate
  refine ⟨tables, htables, ?_⟩
  rw [hc, (hexactly 1).mpr ⟨?_, Chain.one_iff.mpr canChange_first⟩]
  have h := Planner.isOf_of_build honce htables
  obtain ⟨i, hi⟩ := h.exists_index hfirst
  obtain ⟨j, hj⟩ := h.exists_index hsecond
  refine (h.degreeBetween_eq_one_iff hi hj).mpr ⟨meeting "T" "R1" "R2", ?_⟩
  decide

end Detour
end TransitChanges
