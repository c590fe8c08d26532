import TransitChanges.Proofs.LiveChains

/-!
# When a place cannot be reached

The changes between two places are the fewest over the routes that pick up at the one and those that
set down at the other, so one place cannot be reached from another exactly if no such pair of routes
has its changes (`changesBetween_eq_unreachable_iff`).

A pair has its changes if one can get from the one route to the other by exactly as many changes as
the tables record.  The tables do not know which interchanges operate.  So if those behind a
shortest connection do not, the pair counts as not connected, even where a longer chain of changes
can be made.
-/

namespace TransitChanges

open Bits

namespace Changes

/-- Changes on top of an answer do not make it reachable or not. -/
theorem plus_eq_unreachable_iff {a : Changes} {n : Nat} :
    a.plus n = .unreachable ↔ a = .unreachable := by
  cases a with
  | exactly m => exact iff_of_false (fun h => by cases h) fun h => by cases h
  | unreachable => exact iff_of_true rfl rfl

theorem eq_unreachable_iff {a : Changes} : a = .unreachable ↔ ∀ d, ¬ a ≤ .exactly d := by
  cases a with
  | exactly m => exact iff_of_false (fun h => by cases h) fun h => h m (le_refl _)
  | unreachable => exact iff_of_true rfl fun d => Bool.false_ne_true

end Changes

namespace Planner.IsOf

variable {p : Planner} {net : Network} (h : p.IsOf net)

include h in
theorem holds_of_mem_pickupsAt {stations : StationSet} {scope : Scope} {r : Route}
    (hr : r ∈ p.service.pickupsAt stations scope) : net.Holds r := by
  rw [h.service, Network.pickupsAt_service] at hr
  exact Network.holds_of_mem_routesAtAny h.settled hr

include h in
theorem holds_of_mem_dropoffsAt {stations : StationSet} {scope : Scope} {r : Route}
    (hr : r ∈ p.service.dropoffsAt stations scope) : net.Holds r := by
  rw [h.service, Network.dropoffsAt_service] at hr
  exact Network.holds_of_mem_routesAtAny h.settled hr

include h in
/-- The fewest changes over some pairs of routes are the least of the changes of each. -/
theorem exists_fewestBetween (scope : Scope) {starts destinations : List Route}
    (hstarts : ∀ r ∈ starts, net.Holds r) (hdestinations : ∀ r ∈ destinations, net.Holds r) :
    ∃ fewest, ((p.enquiry scope).fewestBetween destinations .unreachable starts).result =
        .ok fewest ∧
      ∀ d, fewest ≤ .exactly d ↔ ∃ a ∈ starts, ∃ b ∈ destinations, ∃ c,
        p.changesBetweenRoutes a.id b.id scope = .ok c ∧ c ≤ .exactly d := by
  have hindexed {r : Route} (hr : net.Holds r) : ∃ i : Nat,
      p.tables.numbering.indexOf r.id = .ok i ∧ p.tables.numbering.routes[i]? = some r := by
    obtain ⟨i, hi⟩ := h.exists_index hr
    exact ⟨i, (h.indexOf_eq_ok_iff hr).mpr hi, hi⟩
  obtain ⟨fewest, hresult, hfewest⟩ := Enquiry.exists_fewestBetween (e := p.enquiry scope) h.built
    (Network.answersAt_of_eq_service h.service scope) (Enquiry.exists_changesNow_of_isBuilt h.built)
    (fun r hr => (hindexed (hdestinations r hr)).imp fun _ hi => hi.1)
    (fun r hr => (hindexed (hstarts r hr)).imp fun _ hi => hi.1)
  refine ⟨fewest, hresult, fun d => ?_⟩
  rw [hfewest]
  constructor
  · rintro ⟨a, ha, i, hi, b, hb, j, hj, c, hc, hle⟩
    have hi' := (h.indexOf_eq_ok_iff (hstarts a ha)).mp hi
    have hj' := (h.indexOf_eq_ok_iff (hdestinations b hb)).mp hj
    refine ⟨a, ha, b, hb, c, ?_, hle⟩
    rw [h.changesBetweenRoutes_eq hi' hj']
    exact hc
  · rintro ⟨a, ha, b, hb, c, hc, hle⟩
    obtain ⟨i, hi, hi'⟩ := hindexed (hstarts a ha)
    obtain ⟨j, hj, hj'⟩ := hindexed (hdestinations b hb)
    rw [h.changesBetweenRoutes_eq hi' hj'] at hc
    exact ⟨a, ha, i, hi, b, hb, j, hj, c, hc, hle⟩

include h in
/-- A place cannot be reached from another exactly if no pair of routes has its changes. -/
theorem changesBetween_eq_unreachable_iff (starts destinations : StationSet) (scope : Scope) :
    p.changesBetween starts destinations scope = .ok .unreachable ↔
      p.service.anyNeighbours starts destinations = false ∧
        ∀ a ∈ p.service.pickupsAt starts scope, ∀ b ∈ p.service.dropoffsAt destinations scope,
          ∀ d, p.changesBetweenRoutes a.id b.id scope ≠ .ok (.exactly d) := by
  have hstarts (r : Route) (hr : r ∈ p.service.pickupsAt starts scope) : net.Holds r :=
    h.holds_of_mem_pickupsAt hr
  have hdestinations (r : Route) (hr : r ∈ p.service.dropoffsAt destinations scope) :
      net.Holds r := h.holds_of_mem_dropoffsAt hr
  obtain ⟨fewest, hresult, hfewest⟩ := h.exists_fewestBetween scope hstarts hdestinations
  unfold changesBetween
  split
  · next hnear =>
    refine iff_of_false (fun hzero => by cases hzero) fun hapart => ?_
    rw [hapart.1] at hnear
    cases hnear
  · next hapart =>
    rw [Bool.not_eq_true] at hapart
    rw [and_iff_right hapart]
    dsimp only
    split
    · next hnone =>
      refine iff_of_true rfl fun a ha b hb => ?_
      rcases hnone with hnone | hnone
      · rw [hnone] at ha
        cases ha
      · rw [hnone] at hb
        cases hb
    · rw [hresult]
      dsimp only [bind, Except.bind, pure, Except.pure]
      rw [Except.ok.injEq, Changes.plus_eq_unreachable_iff, Changes.eq_unreachable_iff]
      simp only [hfewest]
      constructor
      · intro hnone a ha b hb d hd
        exact hnone d ⟨a, ha, b, hb, .exactly d, hd, Changes.le_refl _⟩
      · rintro hnone d ⟨a, ha, b, hb, c, hc, hle⟩
        cases c with
        | exactly m => exact hnone a ha b hb m hc
        | unreachable => exact absurd hle Bool.false_ne_true

include h in
/-- Two routes have no changes exactly if no planned chain is as long as the tables record. -/
theorem no_changes_iff {a b : Route} (ha : net.Holds a) (hb : net.Holds b) (scope : Scope) :
    (∀ d, p.changesBetweenRoutes a.id b.id scope ≠ .ok (.exactly d)) ↔
      ∀ d, p.tables.degrees.degreeBetween a.id b.id = .ok (some d) →
        ¬ Chain (net.feed.Planned scope a) a d b := by
  obtain ⟨i, hi⟩ := h.exists_index ha
  obtain ⟨j, hj⟩ := h.exists_index hb
  obtain ⟨c, hc, hexactly⟩ := h.exists_changesBetweenRoutes_of_planned hi hj scope
  simp only [hc, ne_eq, Except.ok.injEq, hexactly, not_and]

end Planner.IsOf

namespace Planner

/-- No route of the one list is connected to one of the other by a chain of steps as long as the
tables record. -/
def NoRecordedChain (tables : Connections) (step : Route → Route → Route → Prop)
    (starts destinations : List Route) : Prop :=
  ∀ a ∈ starts, ∀ b ∈ destinations, ∀ d,
    tables.degrees.degreeBetween a.id b.id = .ok (some d) → ¬ Chain (step a) a d b

theorem noRecordedChain_or_iff {tables : Connections} {step : Route → Route → Route → Prop}
    {starts destinations : List Route} :
    (starts = [] ∨ destinations = [] ∨ NoRecordedChain tables step starts destinations) ↔
      NoRecordedChain tables step starts destinations := by
  constructor
  · rintro (rfl | rfl | hnone)
    · intro a ha
      cases ha
    · intro a _ b hb
      cases hb
    · exact hnone
  · exact fun hnone => .inr (.inr hnone)

/-- **When a place cannot be reached.**  Neither place is next to the other, and no route picks up at
the one, or none sets down at the other, or no two of these routes are connected by a chain of
planned changes of exactly the recorded number.  On all dates but the calendar's last the planned
changes are those one can make. -/
theorem unreachable_iff_no_recorded_chain {edits : List Edit} (honce : Edit.AddOnce edits)
    {tables : Connections}
    (htables : Connections.build (Network.ofEdits edits).source
      (Network.ofEdits edits).interchanges = .ok tables)
    (starts destinations : StationSet) (scope : Scope) :
    let net := Network.ofEdits edits
    let pickups := net.service.pickupsAt starts scope
    let dropoffs := net.service.dropoffsAt destinations scope
    ((Planner.mk tables net.service).changesBetween starts destinations scope = .ok .unreachable ↔
      net.service.anyNeighbours starts destinations = false ∧ (pickups = [] ∨ dropoffs = [] ∨
        NoRecordedChain tables (net.feed.Planned scope) pickups dropoffs)) ∧
    (scope.date ≠ .last →
      ((Planner.mk tables net.service).changesBetween starts destinations scope =
          .ok .unreachable ↔
        net.service.anyNeighbours starts destinations = false ∧ (pickups = [] ∨ dropoffs = [] ∨
          NoRecordedChain tables (fun _ => net.feed.CanChange scope) pickups dropoffs))) := by
  have h := Planner.isOf_of_build honce htables
  have hplanned : (Planner.mk tables (Network.ofEdits edits).service).changesBetween starts
        destinations scope = .ok .unreachable ↔
      (Network.ofEdits edits).service.anyNeighbours starts destinations = false ∧
        NoRecordedChain tables ((Network.ofEdits edits).feed.Planned scope)
          ((Network.ofEdits edits).service.pickupsAt starts scope)
          ((Network.ofEdits edits).service.dropoffsAt destinations scope) := by
    rw [h.changesBetween_eq_unreachable_iff]
    refine and_congr_right fun _ => forall₂_congr fun a ha => forall₂_congr fun b hb => ?_
    exact h.no_changes_iff (h.holds_of_mem_pickupsAt ha) (h.holds_of_mem_dropoffsAt hb) scope
  dsimp only
  simp only [noRecordedChain_or_iff]
  refine ⟨hplanned, fun hdate => ?_⟩
  rw [hplanned]
  simp only [NoRecordedChain, Feed.chain_planned_iff hdate]

end Planner

namespace Detour

open SampleCity

/-- The place where the first line starts. -/
def start : StationSet := .ofList [named "P"]

/-- The place where the last line ends. -/
def goal : StationSet := .ofList [named "Q"]

theorem eq_of_mem_pickupsAt {r : Route}
    (hr : r ∈ (Network.ofEdits edits).service.pickupsAt start scope) : r = line "R1" := by
  rw [Network.pickupsAt_service] at hr
  exact Network.of_mem_routesAtAny (motive := (· = line "R1")) (by decide) hr

theorem eq_of_mem_dropoffsAt {r : Route}
    (hr : r ∈ (Network.ofEdits edits).service.dropoffsAt goal scope) : r = line "R3" := by
  rw [Network.dropoffsAt_service] at hr
  exact Network.of_mem_routesAtAny (motive := (· = line "R3")) (by decide) hr

/-- The only interchange of the first line and the last does not operate. -/
theorem not_canChange_directly :
    ¬ (Network.ofEdits edits).feed.CanChange scope (line "R1") (line "R3") := by
  rintro ⟨-, -, -, i, hi, hdropoff, hpickup, hoperates⟩
  have honly : ∀ i ∈ (Network.ofEdits edits).interchanges, line "R1" ∈ i.dropoffs →
      line "R3" ∈ i.pickups → (Network.ofEdits edits).isClosed i.station scope.date = true := by
    decide
  have hclosed := honly i hi hdropoff hpickup
  have havailable : (Network.ofEdits edits).isAvailable i.station scope = true :=
    ((Network.ofEdits edits).answersFor_service scope i).symm.trans hoperates
  rw [Network.isAvailable, hclosed] at havailable
  cases havailable

/-- **The detour is not found.**  The place where the last line ends counts as unreachable, although
one can get there from the first line by way of the second: the tables record one change between the
first line and the last, and the one interchange where it could be made is closed. -/
theorem unreachable_despite_detour :
    ∃ tables, Connections.build (Network.ofEdits edits).source
        (Network.ofEdits edits).interchanges = .ok tables ∧
      (Planner.mk tables (Network.ofEdits edits).service).changesBetween start goal scope =
        .ok .unreachable ∧
      ∃ a ∈ (Network.ofEdits edits).service.pickupsAt start scope,
        ∃ b ∈ (Network.ofEdits edits).service.dropoffsAt goal scope,
          Chain ((Network.ofEdits edits).feed.CanChange scope) a 2 b := by
  obtain ⟨tables, htables⟩ := exists_tables
  have honce : Edit.AddOnce edits := by decide
  have hdate : scope.date ≠ .last := by decide
  have h := Planner.isOf_of_build honce htables
  have hpickup : line "R1" ∈ (Network.ofEdits edits).service.pickupsAt start scope :=
    Network.mem_routesAtAny h.settled (c := ⟨named "P", line "R1", .pickupOnly, .allDay⟩)
      (by decide) (by decide) (by decide) (by decide)
  have hdropoff : line "R3" ∈ (Network.ofEdits edits).service.dropoffsAt goal scope :=
    Network.mem_routesAtAny h.settled (c := ⟨named "Q", line "R3", .dropoffOnly, .allDay⟩)
      (by decide) (by decide) (by decide) (by decide)
  refine ⟨tables, htables, ?_, line "R1", hpickup, line "R3", hdropoff,
    (Chain.one_iff.mpr canChange_first).tail canChange_second⟩
  refine ((Planner.unreachable_iff_no_recorded_chain honce htables start goal scope).2 hdate).mpr
    ⟨by decide, .inr (.inr ?_)⟩
  intro a ha b hb d hdegree hchain
  obtain rfl := eq_of_mem_pickupsAt ha
  obtain rfl := eq_of_mem_dropoffsAt hb
  obtain ⟨i, hi⟩ := h.exists_index (show (Network.ofEdits edits).Holds (line "R1") by decide)
  obtain ⟨j, hj⟩ := h.exists_index (show (Network.ofEdits edits).Holds (line "R3") by decide)
  have hone := (h.degreeBetween_eq_one_iff hi hj).mpr ⟨meeting "S" "R1" "R3", by decide⟩
  rw [hone] at hdegree
  cases hdegree
  exact not_canChange_directly (Chain.one_iff.mp hchain)

end Detour
end TransitChanges
