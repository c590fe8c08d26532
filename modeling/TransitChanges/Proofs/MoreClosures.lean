import TransitChanges.Proofs.Comparing

/-!
# Closures only ever worsen answers

A network with further closures, wherever they stand among its edits (`Edit.ClosesMore`), holds the
same routes, calls and walks (`Network.ShutMore`).  The tables are built from routes and calls
alone, so they are the same, and so are the routes that a query finds at a place.

What closures decide is which stations operate, and fewer do.  The ways of a pair come from the
tables, so each pair keeps its recorded number or becomes unreachable.  A place that is wholly
closed remains so, and costs one change more.

* `Network.shutMore_ofEdits`: what further closures leave as it was.
* `Planner.sameOr_changesBetweenRoutes`: two routes.
* `Planner.noBetterThan_of_closesMore`: all ways to ask.
-/

namespace TransitChanges

open Calendar

/-! ## Further closures -/

/-- The first list of edits is the second with further closures put in anywhere. -/
inductive Edit.ClosesMore : List Edit → List Edit → Prop where
  | nil : ClosesMore [] []
  | keep (edit : Edit) {more edits : List Edit} (h : ClosesMore more edits) :
      ClosesMore (edit :: more) (edit :: edits)
  | close (station : String) (dates : DateRange) {more edits : List Edit}
      (h : ClosesMore more edits) : ClosesMore (.close station dates :: more) edits

theorem Edit.ClosesMore.refl (edits : List Edit) : ClosesMore edits edits := by
  induction edits with
  | nil => exact .nil
  | cons edit edits ih => exact .keep edit ih

/-- A closure can be put in anywhere. -/
theorem Edit.ClosesMore.insert (before after : List Edit) (station : String) (dates : DateRange) :
    ClosesMore (before ++ .close station dates :: after) (before ++ after) := by
  induction before with
  | nil => exact .close station dates (.refl after)
  | cons edit before ih => exact .keep edit ih

namespace Network

/-- A network is another one with further closures. -/
structure ShutMore (more net : Network) : Prop where
  routes_eq : more.routes = net.routes
  calls_eq : more.calls = net.calls
  walks_eq : more.walks = net.walks
  closures_subset : net.closures ⊆ more.closures

namespace ShutMore

variable {more net : Network} (h : more.ShutMore net)
include h

/-- An edit of both networks keeps them so. -/
theorem apply (edit : Edit) : (more.apply edit).ShutMore (net.apply edit) := by
  obtain ⟨hroutes, hcalls, hwalks, hclosures⟩ := h
  cases edit with
  | route r =>
    refine ⟨?_, hcalls, hwalks, hclosures⟩
    rw [Network.apply, Network.apply, hroutes]
  | call station route calling window =>
    have hnamed : more.routeNamed? route = net.routeNamed? route := by
      rw [routeNamed?, routeNamed?, hroutes]
    rw [Network.apply, Network.apply, addCall, addCall, hnamed]
    split
    · exact ⟨hroutes, congrArg (· ++ _) hcalls, hwalks, hclosures⟩
    · exact ⟨hroutes, hcalls, hwalks, hclosures⟩
  | close station dates =>
    rw [Network.apply, Network.apply, addClosure, addClosure]
    split
    · exact ⟨hroutes, hcalls, hwalks, List.append_subset.mpr
        ⟨List.subset_append_of_subset_left _ hclosures, List.subset_append_right _ _⟩⟩
    · exact ⟨hroutes, hcalls, hwalks, hclosures⟩
  | walk first second =>
    rw [Network.apply, Network.apply, addWalk, addWalk]
    split
    · exact ⟨hroutes, hcalls, congrArg (· ++ _) hwalks, hclosures⟩
    · exact ⟨hroutes, hcalls, hwalks, hclosures⟩

/-- So does a closure of the first alone. -/
theorem close (station : String) (dates : DateRange) :
    (more.apply (.close station dates)).ShutMore net := by
  obtain ⟨hroutes, hcalls, hwalks, hclosures⟩ := h
  rw [Network.apply, addClosure]
  split
  · exact ⟨hroutes, hcalls, hwalks, List.subset_append_of_subset_left _ hclosures⟩
  · exact ⟨hroutes, hcalls, hwalks, hclosures⟩

/-- And so does every further list of edits that closes more. -/
theorem foldl {edits' edits : List Edit} (hedits : Edit.ClosesMore edits' edits) :
    (edits'.foldl Network.apply more).ShutMore (edits.foldl Network.apply net) := by
  induction hedits generalizing more net with
  | nil => exact h
  | keep edit _ ih => exact ih (h.apply edit)
  | close station dates _ ih => exact ih (h.close station dates)

/-! ## What closures do not touch -/

theorem source_eq : more.source = net.source := by
  rw [source, source, h.routes_eq]

theorem interchanges_eq : more.interchanges = net.interchanges := by
  simp only [interchanges, stations, callsAt, h.calls_eq]

theorem routesAt_eq : more.routesAt = net.routesAt := by
  funext wanted station scope
  rw [routesAt, routesAt, callsAt, callsAt, h.calls_eq]

theorem pickupsAt_eq (stations : StationSet) (scope : Scope) :
    more.service.pickupsAt stations scope = net.service.pickupsAt stations scope := by
  rw [pickupsAt_service, pickupsAt_service, routesAtAny, routesAtAny, h.routesAt_eq]

theorem dropoffsAt_eq (stations : StationSet) (scope : Scope) :
    more.service.dropoffsAt stations scope = net.service.dropoffsAt stations scope := by
  rw [dropoffsAt_service, dropoffsAt_service, routesAtAny, routesAtAny, h.routesAt_eq]

theorem areNeighbours_eq : more.areNeighbours = net.areNeighbours := by
  funext first second
  rw [areNeighbours, areNeighbours, h.walks_eq]

/-! ## What they make worse -/

theorem isClosed {station : StationId} {date : Date} (hclosed : net.isClosed station date = true) :
    more.isClosed station date = true := by
  rw [Network.isClosed, List.any_eq_true] at hclosed ⊢
  obtain ⟨closure, hclosure, hcovers⟩ := hclosed
  exact ⟨closure, h.closures_subset hclosure, hcovers⟩

theorem isAvailable {station : StationId} {scope : Scope}
    (havailable : more.isAvailable station scope = true) :
    net.isAvailable station scope = true := by
  rw [isAvailable_iff] at havailable ⊢
  obtain ⟨hopen, hcall⟩ := havailable
  rw [h.calls_eq] at hcall
  refine ⟨Bool.eq_false_iff.mpr fun hclosed => ?_, hcall⟩
  rw [h.isClosed hclosed] at hopen
  cases hopen

/-- An interchange that operates in spite of further closures operates without them. -/
theorem isOperating {scope : Scope} {i : Interchange}
    (hoperates : more.service.isOperating scope i = true) :
    net.service.isOperating scope i = true := by
  rw [answersFor_service] at hoperates ⊢
  exact h.isAvailable hoperates

theorem closedEnd_le (stations : StationSet) (date : Date) :
    net.closedEnd stations date ≤ more.closedEnd stations date := by
  unfold closedEnd
  split
  · next hclosed => rw [if_pos ⟨hclosed.1, fun s hs => h.isClosed (hclosed.2 s hs)⟩]
  · exact Nat.zero_le _

end ShutMore

/-- **Further closures leave routes, calls and walks as they were**, wherever they are put in. -/
theorem shutMore_ofEdits {more edits : List Edit} (h : Edit.ClosesMore more edits) :
    (ofEdits more).ShutMore (ofEdits edits) :=
  ShutMore.foldl ⟨rfl, rfl, rfl, List.Subset.refl _⟩ h

end Network

/-! ## Outcomes -/

/-- A ranking answers about every route with no fewer changes than another one, or refuses it for
the same cause, whatever either was asked before. -/
def Ranking.NoBetterThan (more r : Ranking) : Prop :=
  ∀ m m', r.Remembers m → more.Remembers m' → ∀ route,
    Fault.SameOr (· ≤ ·) ((r.fewestChanges route).run m).1 ((more.fewestChanges route).run m').1

/-- However it is asked, a planner answers with no fewer changes than another one, and it refuses
whatever the other refuses, for the same cause. -/
structure Planner.NoBetterThan (more p : Planner) : Prop where
  routes (first second : RouteId) (scope : Scope) : Fault.SameOr (· ≤ ·)
    (p.changesBetweenRoutes first second scope) (more.changesBetweenRoutes first second scope)
  places (starts destinations : StationSet) (scope : Scope) : Fault.SameOr (· ≤ ·)
    (p.changesBetween starts destinations scope) (more.changesBetween starts destinations scope)
  rankingForRoutes (routes : List RouteId) (scope : Scope) :
    Fault.SameOr (fun r r' => r'.NoBetterThan r)
      (p.rankingForRoutes routes scope) (more.rankingForRoutes routes scope)
  rankingFor (destinations : StationSet) (scope : Scope) :
    Fault.SameOr (fun r r' => r'.NoBetterThan r)
      (p.rankingFor destinations scope) (more.rankingFor destinations scope)

/-! ## The changes of a pair -/

/-- A tree that is open is open where more stations operate. -/
theorem Ways.isOpen_mono {Station : Type} {operates operates' : Station → Bool}
    (h : ∀ station, operates station = true → operates' station = true) {w : Ways Station}
    (hopen : w.isOpen operates = true) : w.isOpen operates' = true := by
  rw [isOpen_iff_exists_chain] at hopen ⊢
  obtain ⟨c, hc, hall⟩ := hopen
  exact ⟨c, hc, fun station hs => h station (hall station hs)⟩

namespace Planner

variable {tables : Connections} {scope : Scope}

/-- Over the same tables a pair needs no fewer changes where fewer interchanges operate. -/
theorem sameOr_changesNow {service service' : Service}
    (h : ∀ i, service'.isOperating scope i = true → service.isOperating scope i = true)
    (pair : RoutePair) : Fault.SameOr (· ≤ ·)
      (((Planner.mk tables service).enquiry scope).changesNow pair)
      (((Planner.mk tables service').enquiry scope).changesNow pair) := by
  unfold Enquiry.changesNow
  split
  · exact .answered (Changes.le_refl _)
  · -- both are told by the same ways, which the tables alone decide
    have hgate : ((Planner.mk tables service').enquiry scope).gate =
        ((Planner.mk tables service).enquiry scope).gate := rfl
    rw [hgate]
    show Fault.SameOr _ (tables.waysFor _ scope.modes pair >>= _)
      (tables.waysFor _ scope.modes pair >>= _)
    cases tables.waysFor ((Planner.mk tables service).enquiry scope).gate scope.modes pair with
    | error fault => exact .refused fault
    | ok ways =>
      have hle : (if ways.isOpen (service.isOperating scope) then ways.depth else .unreachable) ≤
          if ways.isOpen (service'.isOperating scope) then ways.depth else .unreachable := by
        by_cases hopen : ways.isOpen (service'.isOperating scope) = true
        · rw [if_pos hopen, if_pos (Ways.isOpen_mono h hopen)]
          exact Changes.le_refl _
        · rw [if_neg hopen]
          exact Changes.le_unreachable _
      exact .answered hle

section ShutMore

variable {more net : Network} (h : more.ShutMore net) {interchanges : List Interchange}
  (ht : tables.IsBuilt interchanges)
  (htold : (Planner.mk tables net.service).ToldByPairs net)
  (htold' : (Planner.mk tables more.service).ToldByPairs more)

include h ht in
/-- **Two routes need no fewer changes for further closures.** -/
theorem sameOr_changesBetweenRoutes (first second : RouteId) (scope : Scope) :
    Fault.SameOr (· ≤ ·)
      ((Planner.mk tables net.service).changesBetweenRoutes first second scope)
      ((Planner.mk tables more.service).changesBetweenRoutes first second scope) := by
  cases hi : tables.numbering.indexOf first with
  | error fault =>
    rw [changesBetweenRoutes, changesBetweenRoutes, Numbering.pairOf, hi]
    exact .refused fault
  | ok i =>
    cases hj : tables.numbering.indexOf second with
    | error fault =>
      rw [changesBetweenRoutes, changesBetweenRoutes, Numbering.pairOf, hi, hj]
      exact .refused fault
    | ok j =>
      rw [changesBetweenRoutes_eq_changesNow ht (Network.answersAt_of_eq_service rfl scope) hi hj,
        changesBetweenRoutes_eq_changesNow ht (Network.answersAt_of_eq_service rfl scope) hi hj]
      exact sameOr_changesNow (fun _ => h.isOperating) ⟨i, j⟩

include h ht htold htold' in
/-- Two places need no fewer changes for further closures. -/
theorem sameOr_changesBetween (starts destinations : StationSet) (scope : Scope) :
    Fault.SameOr (· ≤ ·)
      ((Planner.mk tables net.service).changesBetween starts destinations scope)
      ((Planner.mk tables more.service).changesBetween starts destinations scope) := by
  have hworse : ∃ c c',
      (Planner.mk tables more.service).changesBetween starts destinations scope = .ok c ∧
      (Planner.mk tables net.service).changesBetween starts destinations scope = .ok c' ∧
      c' ≤ c := by
    refine htold'.exists_changesBetween_le htold ?_ ?_ ?_ ?_ ?_
    · rw [h.areNeighbours_eq]
      exact id
    · rw [h.pickupsAt_eq]
      exact List.Subset.refl _
    · rw [h.dropoffsAt_eq]
      exact List.Subset.refl _
    · intro r _ s _ c c' hc hc'
      exact (sameOr_changesBetweenRoutes h ht r.id s.id scope).of_ok hc' hc
    · exact fun _ _ => ⟨h.closedEnd_le starts scope.date, h.closedEnd_le destinations scope.date⟩
  obtain ⟨c, c', hc, hc', hle⟩ := hworse
  rw [hc, hc']
  exact .answered hle

include h ht in
/-- A ranking answers with no fewer changes for further closures. -/
theorem noBetterThan_of_ranksBy {routes : List RouteId} {r r' : Ranking}
    (hr : (Planner.mk tables net.service).rankingForRoutes routes scope = .ok r)
    (hr' : (Planner.mk tables more.service).rankingForRoutes routes scope = .ok r')
    (hranks : (Planner.mk tables net.service).RanksBy scope routes r)
    (hranks' : (Planner.mk tables more.service).RanksBy scope routes r') : r'.NoBetterThan r := by
  intro m m' hm hm' route
  cases hi : tables.numbering.indexOf route with
  | error fault =>
    have hrefused {p : Planner} {r : Ranking} (hp : p.tables = tables)
        (hr : p.rankingForRoutes routes scope = .ok r) (m : Memory) :
        (r.fewestChanges route).run m = (.error fault, m) := by
      rw [Ranking.fewestChanges, enquiry_of_rankingForRoutes hr, Enquiry.indexOf, enquiry]
      dsimp only
      rw [hp, hi]
      rfl
    rw [hrefused rfl hr, hrefused rfl hr']
    exact .refused fault
  | ok i =>
    obtain ⟨fewest, _, hrun, hfewest⟩ := hranks m hm route ⟨i, hi⟩
    obtain ⟨fewest', _, hrun', hfewest'⟩ := hranks' m' hm' route ⟨i, hi⟩
    rw [hrun, hrun']
    refine .answered (hfewest'.le_of_pairs hfewest (List.Subset.refl _) (List.Subset.refl _) ?_)
    intro a _ b _ c c' hc hc'
    exact (sameOr_changesBetweenRoutes h ht a b scope).of_ok hc' hc

include h ht htold htold' in
/-- Rankings are made alike, and answer with no fewer changes for further closures. -/
theorem sameOr_rankingForRoutes (routes : List RouteId) (scope : Scope) :
    Fault.SameOr (fun r r' => r'.NoBetterThan r)
      ((Planner.mk tables net.service).rankingForRoutes routes scope)
      ((Planner.mk tables more.service).rankingForRoutes routes scope) := by
  cases hindexes : routes.mapM tables.numbering.indexOf with
  | error fault =>
    rw [rankingForRoutes, rankingForRoutes, hindexes]
    exact .refused fault
  | ok indexes =>
    have hroutes := Numbering.exists_indexOf_of_mapM hindexes
    obtain ⟨r, hr, hranks⟩ := htold.rankingForRoutes scope hroutes
    obtain ⟨r', hr', hranks'⟩ := htold'.rankingForRoutes scope hroutes
    rw [hr, hr']
    exact .answered (noBetterThan_of_ranksBy h ht hr hr' hranks hranks')

include h ht htold htold' in
/-- **However it is asked, a network answers with no fewer changes for further closures.** -/
theorem noBetterThan_of_shutMore :
    (Planner.mk tables more.service).NoBetterThan (.mk tables net.service) where
  routes := sameOr_changesBetweenRoutes h ht
  places := sameOr_changesBetween h ht htold htold'
  rankingForRoutes := sameOr_rankingForRoutes h ht htold htold'
  rankingFor destinations scope := by
    rw [rankingFor, rankingFor, h.dropoffsAt_eq]
    exact sameOr_rankingForRoutes h ht htold htold' _ scope

end ShutMore

/-- **Closures only ever worsen answers.**  Two networks that differ by further closures, wherever
among their edits, have the same tables or are refused alike; and over those tables every query is
refused alike, or answered with no fewer changes on the network with more closures. -/
theorem noBetterThan_of_closesMore {more edits : List Edit} (h : Edit.ClosesMore more edits) :
    Connections.build (Network.ofEdits more).source (Network.ofEdits more).interchanges =
      Connections.build (Network.ofEdits edits).source (Network.ofEdits edits).interchanges ∧
    ∀ tables, Connections.build (Network.ofEdits edits).source
        (Network.ofEdits edits).interchanges = .ok tables →
      (Planner.mk tables (Network.ofEdits more).service).NoBetterThan
        (.mk tables (Network.ofEdits edits).service) := by
  have hmore := Network.shutMore_ofEdits h
  have hbuild : Connections.build (Network.ofEdits more).source (Network.ofEdits more).interchanges =
      Connections.build (Network.ofEdits edits).source (Network.ofEdits edits).interchanges := by
    rw [hmore.source_eq, hmore.interchanges_eq]
  refine ⟨hbuild, fun tables htables => ?_⟩
  obtain ⟨hn, ht⟩ := Connections.isBuilt_of_build htables
  obtain ⟨hn', ht'⟩ := Connections.isBuilt_of_build (hbuild.trans htables)
  exact noBetterThan_of_shutMore hmore ht
    (toldByPairs_of_isBuilt (Network.known_ofEdits edits) hn ht rfl)
    (toldByPairs_of_isBuilt (Network.known_ofEdits more) hn' ht' rfl)

/-- The sample city with an interchange closed for the year, before its stops are known. -/
theorem noBetterThan_deansgate_closed :
    Connections.build
        (Network.ofEdits (SampleCity.routes.map .route ++
          .close "DEANSGATE" SampleCity.year :: SampleCity.stops)).source
        (Network.ofEdits (SampleCity.routes.map .route ++
          .close "DEANSGATE" SampleCity.year :: SampleCity.stops)).interchanges =
      Connections.build SampleCity.network.source SampleCity.network.interchanges ∧
    ∃ tables, Connections.build SampleCity.network.source SampleCity.network.interchanges =
        .ok tables ∧
      (Planner.mk tables (Network.ofEdits (SampleCity.routes.map .route ++
        .close "DEANSGATE" SampleCity.year :: SampleCity.stops)).service).NoBetterThan
          (.mk tables SampleCity.network.service) := by
  have hmore := Edit.ClosesMore.insert (SampleCity.routes.map .route) SampleCity.stops "DEANSGATE"
    SampleCity.year
  obtain ⟨hbuild, hworse⟩ := noBetterThan_of_closesMore hmore
  have hsize : SampleCity.network.routes.size ≤ maxRoutes := by decide
  obtain ⟨tables, htables⟩ := Network.exists_connections (Network.known_ofEdits _) hsize
  exact ⟨hbuild, tables, htables, hworse tables htables⟩

end Planner
end TransitChanges
