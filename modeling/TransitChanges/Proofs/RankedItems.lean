import TransitChanges.Proofs.Decompositions
import TransitChanges.Proofs.FewestOfPairs
import TransitChanges.Proofs.LastingAnswers
import TransitChanges.Proofs.Sorting

/-!
# Items sorted by a ranking

A ranking sorts items by the changes from their routes.  It asks about one item after the other,
with one memory for all of them, and stops at the first whose route has no index; only then are the
items sorted, and items with one number of changes stay as they were (`RankedBy`).

Answers last, so items are sorted by what the ranking answers from then on.  Where the interchanges
of one station have one answer, what was remembered before makes no difference either: the answer
about a route is the fewest changes to the destinations, of which there is only one, and every
question leaves behind what a ranking may remember (`Ranking.Remembers`).

Where they have not, the first of them that is asked decides, and with it what a ranking answers
later (`TwoPlatforms`).

* `rankedBy_mergeSort`: sorting by a number of changes.
* `Ranking.rankedBy_of_sort`: items are sorted by what is answered from then on.
* `Ranking.ensures_sort`: a ranking sorts by what it answers, if that is always the same.
* `Ranking.refuses_sort`: it refuses for the first item that is not indexed.
-/

namespace TransitChanges

/-! ## Sorting by changes -/

/-- Items are sorted by numbers of changes: none is left out or added, those with fewer changes come
first and those from which one cannot get there come last, and among items with one number the order
is as it was. -/
structure RankedBy {α : Type} (changes : α → Changes) (items sorted : List α) : Prop where
  perm : sorted.Perm items
  ordered : sorted.Pairwise fun a b => changes a ≤ changes b
  unreachable_last :
    sorted.Pairwise fun a b => changes a = .unreachable → changes b = .unreachable
  stable {p : α → Bool} (h : ∀ a b, p a = true → p b = true → changes a = changes b) :
    sorted.filter p = items.filter p

theorem rankedBy_mergeSort {α : Type} (changes : α → Changes) (items : List α) :
    RankedBy changes items (items.mergeSort fun a b => decide (changes a ≤ changes b)) := by
  have htrans (a b c : α) (hab : decide (changes a ≤ changes b) = true)
      (hbc : decide (changes b ≤ changes c) = true) : decide (changes a ≤ changes c) = true := by
    simp only [decide_eq_true_eq] at *
    exact Changes.le_trans hab hbc
  have htotal (a b : α) :
      (decide (changes a ≤ changes b) || decide (changes b ≤ changes a)) = true := by
    simpa using Changes.le_total (changes a) (changes b)
  have hordered := List.pairwise_mergeSort htrans htotal items
  simp only [decide_eq_true_eq] at hordered
  refine ⟨List.mergeSort_perm _ _, hordered, hordered.imp fun hle hnever => ?_, fun h => ?_⟩
  · rw [hnever] at hle
    exact Changes.eq_unreachable_of_le hle
  · refine filter_mergeSort htrans htotal (fun a b ha hb => ?_) items
    rw [h a b ha hb]
    exact decide_eq_true (Changes.le_refl _)

namespace Asking

variable {α β : Type} {step : Asking α} {next : α → Asking β} {fault : Fault}

/-- Whatever is remembered, the step refuses for the given cause. -/
def Refuses (step : Asking α) (fault : Fault) : Prop :=
  ∀ m, (step.run m).1 = .error fault

namespace Refuses

theorem bind_left (h : Refuses step fault) (next : α → Asking β) :
    Refuses (step >>= next) fault := by
  intro m
  show (ExceptT.bindCont next (step.run m).1 (step.run m).2).1 = .error fault
  rw [h m]
  rfl

theorem bind_right (h : Ensures (fun _ => True) step fun _ => True)
    (h' : ∀ a, Refuses (next a) fault) : Refuses (step >>= next) fault := by
  intro m
  obtain ⟨a, m', hrun, -⟩ := h m trivial
  show (ExceptT.bindCont next (step.run m).1 (step.run m).2).1 = .error fault
  rw [hrun]
  exact h' a m'

end Refuses
end Asking

namespace Ranking

variable {r : Ranking} {known : Memory → Prop} {α : Type} {route : α → RouteId} {items : List α}

/-! ## Asking about one item after the other -/

/-- The items are kept in their order, each with an answer about its route. -/
theorem ensures_withChanges {answer : α → Changes → Prop}
    (h : ∀ item ∈ items, Asking.Ensures known (r.fewestChanges (route item)) (answer item)) :
    Asking.Ensures known (r.withChanges route items) fun ranked =>
      List.Forall₂ (fun item entry => answer item entry.1 ∧ item = entry.2) items ranked := by
  induction items with
  | nil => exact .pure .nil
  | cons item items ih =>
    obtain ⟨hitem, hitems⟩ := List.forall_mem_cons.mp h
    refine hitem.bind fun changes hchanges => ?_
    refine (ih hitems).bind fun ranked hranked => ?_
    exact .pure (.cons ⟨hchanges, rfl⟩ hranked)

/-- A ranking sorts items if it answers about each of them. -/
theorem ensures_sort_any (h : ∀ item ∈ items,
      Asking.Ensures known (r.fewestChanges (route item)) fun _ => True) :
    Asking.Ensures known (r.sort route items) fun _ => True :=
  (ensures_withChanges h).bind fun _ _ => .pure trivial

/-- Items with their numbers of changes are sorted as the items are by theirs. -/
theorem map_mergeSort_map (changes : α → Changes) (items : List α) :
    ((items.map fun item => (changes item, item)).mergeSort fun a b =>
        decide (a.1 ≤ b.1)).map Prod.snd =
      items.mergeSort fun a b => decide (changes a ≤ changes b) := by
  have hmap := List.map_mergeSort (f := fun item => (changes item, item)) (l := items)
    (r := fun a b => decide (changes a ≤ changes b)) (s := fun a b => decide (a.1 ≤ b.1))
    fun _ _ _ _ => rfl
  rw [← hmap, List.map_map]
  exact List.map_id' _

/-- **A ranking sorts by what it answers from then on**, whatever it was asked before. -/
theorem rankedBy_of_sort {m m' : Memory} {sorted : List α}
    (h : (r.sort route items).run m = (.ok sorted, m')) : ∃ fewest : RouteId → Changes,
      (∀ item ∈ items, (r.fewestChanges (route item)).run m' = (.ok (fewest (route item)), m')) ∧
      RankedBy (fun item => fewest (route item)) items sorted := by
  obtain ⟨ranked, m'', hranked, h⟩ := Asking.run_bind_eq_ok h
  cases h
  have hanswers : List.Forall₂ (fun item entry =>
      (∃ c, (r.fewestChanges (route item)).run m' = (.ok c, m')) ∧
        (((r.fewestChanges (route item)).run m').1.toOption.getD .unreachable, item) = entry)
      items ranked := by
    refine (answers_of_withChanges hranked).imp fun item entry hentry => ⟨⟨_, hentry.1⟩, ?_⟩
    rw [hentry.1]
    exact Prod.ext rfl hentry.2
  obtain ⟨hitems, hsame⟩ := (List.forall₂_and_left items ranked).mp hanswers
  rw [← List.forall₂_map_left_iff, List.forall₂_eq_eq_eq] at hsame
  refine ⟨fun id => ((r.fewestChanges id).run m').1.toOption.getD .unreachable,
    fun item hitem => ?_, ?_⟩
  · obtain ⟨c, hc⟩ := hitems item hitem
    dsimp only
    rw [hc]
    rfl
  · rw [← hsame, map_mergeSort_map]
    exact rankedBy_mergeSort _ items

/-- **A ranking sorts by what it answers**, if it answers about each item whatever it was asked
before. -/
theorem ensures_sort {changes : α → Changes} (h : ∀ item ∈ items,
      Asking.Ensures known (r.fewestChanges (route item)) fun c => changes item = c) :
    Asking.Ensures known (r.sort route items)
      fun sorted => sorted = items.mergeSort fun a b => decide (changes a ≤ changes b) := by
  refine (ensures_withChanges h).bind fun ranked hranked => .pure ?_
  have hitems : items.map (fun item => (changes item, item)) = ranked := by
    rw [← List.forall₂_eq_eq_eq, List.forall₂_map_left_iff]
    exact hranked.imp fun _ _ hentry => Prod.ext hentry.1 hentry.2
  rw [← hitems]
  exact map_mergeSort_map changes items

/-! ## Items that are not indexed -/

section Built

variable {interchanges : List Interchange}
  (ht : r.enquiry.planner.tables.IsBuilt interchanges)

theorem refuses_fewestChanges {id : RouteId}
    (hid : ¬ ∃ i, r.enquiry.planner.tables.numbering.indexOf id = .ok i) :
    (r.fewestChanges id).Refuses (.routeNotIndexed id) := by
  have hindex : (r.enquiry.indexOf id).Refuses (.routeNotIndexed id) := by
    intro m
    unfold Enquiry.indexOf
    cases hfound : r.enquiry.planner.tables.numbering.indexOf id with
    | ok i => exact absurd ⟨i, hfound⟩ hid
    | error fault =>
      rw [Numbering.eq_of_indexOf_eq_error hfound]
      rfl
  exact hindex.bind_left _

include ht in
/-- **A ranking refuses for the first item that is not indexed**, whatever comes after. -/
theorem refuses_sort {before after : List α} {item : α}
    (hbefore : ∀ earlier ∈ before,
      ∃ i, r.enquiry.planner.tables.numbering.indexOf (route earlier) = .ok i)
    (hitem : ¬ ∃ i, r.enquiry.planner.tables.numbering.indexOf (route item) = .ok i) :
    (r.sort route (before ++ item :: after)).Refuses (.routeNotIndexed (route item)) := by
  have hranked : (r.withChanges route (before ++ item :: after)).Refuses
      (.routeNotIndexed (route item)) := by
    induction before with
    | nil => exact (refuses_fewestChanges hitem).bind_left _
    | cons earlier before ih =>
      obtain ⟨hearlier, hbefore⟩ := List.forall_mem_cons.mp hbefore
      refine .bind_right (ensures_fewestChanges ht hearlier) fun changes => ?_
      exact (ih hbefore).bind_left _
  exact hranked.bind_left _

end Built

/-- If not all items are of a kind, there is a first that is not. -/
theorem exists_first {P : α → Prop} (h : ¬ ∀ item ∈ items, P item) :
    ∃ before item after, items = before ++ item :: after ∧ (∀ earlier ∈ before, P earlier) ∧
      ¬ P item := by
  induction items with
  | nil => exact absurd (List.forall_mem_nil P) h
  | cons item items ih =>
    by_cases hitem : P item
    · have hitems : ¬ ∀ item ∈ items, P item := fun hall =>
        h (List.forall_mem_cons.mpr ⟨hitem, hall⟩)
      obtain ⟨before, first, after, rfl, hbefore, hfirst⟩ := ih hitems
      exact ⟨item :: before, first, after, rfl, List.forall_mem_cons.mpr ⟨hitem, hbefore⟩, hfirst⟩
    · exact ⟨[], item, items, rfl, List.forall_mem_nil P, hitem⟩

end Ranking

namespace Planner

variable {p : Planner} {interchanges : List Interchange} {scope : Scope} {routes : List RouteId}
  {r : Ranking} {α : Type} (route : α → RouteId) (items : List α)

section Built

variable (ht : p.tables.IsBuilt interchanges) (hr : p.rankingForRoutes routes scope = .ok r)
include ht hr

theorem refuses_sort {before after : List α} {item : α}
    (hbefore : ∀ earlier ∈ before, ∃ i, p.tables.numbering.indexOf (route earlier) = .ok i)
    (hitem : ¬ ∃ i, p.tables.numbering.indexOf (route item) = .ok i) :
    (r.sort route (before ++ item :: after)).Refuses (.routeNotIndexed (route item)) := by
  have henquiry := enquiry_of_rankingForRoutes hr
  refine Ranking.refuses_sort (isBuilt_of_rankingForRoutes ht hr) ?_ ?_
  · rw [henquiry]
    exact hbefore
  · rw [henquiry]
    exact hitem

theorem ensures_sort_any
    (hitems : ∀ item ∈ items, ∃ i, p.tables.numbering.indexOf (route item) = .ok i) :
    Asking.Ensures (fun _ => True) (r.sort route items) fun _ => True := by
  refine Ranking.ensures_sort_any fun item hitem => ?_
  refine Ranking.ensures_fewestChanges (isBuilt_of_rankingForRoutes ht hr) ?_
  rw [enquiry_of_rankingForRoutes hr]
  exact hitems item hitem

/-- **Items are sorted exactly if all their routes are indexed**, whatever is remembered. -/
theorem exists_sort_iff (m : Memory) :
    (∃ sorted, ((r.sort route items).run m).1 = .ok sorted) ↔
      ∀ item ∈ items, ∃ i, p.tables.numbering.indexOf (route item) = .ok i := by
  constructor
  · rintro ⟨sorted, hsorted⟩
    by_contra hnot
    obtain ⟨before, item, after, rfl, hbefore, hitem⟩ := Ranking.exists_first hnot
    rw [refuses_sort route ht hr hbefore hitem m] at hsorted
    cases hsorted
  · intro hitems
    obtain ⟨sorted, m', hrun, -⟩ := ensures_sort_any route items ht hr hitems m trivial
    exact ⟨sorted, by rw [hrun]⟩

/-- **A ranking has one answer about a route**, whatever it was asked before. -/
theorem exists_fewest {answer : StationId → Bool}
    (hanswers : p.service.AnswersAt scope interchanges answer) :
    ∃ fewest : RouteId → Changes, ∀ id, (∃ i, p.tables.numbering.indexOf id = .ok i) →
      Asking.Ensures r.Remembers (r.fewestChanges id) fun c => fewest id = c := by
  have hroutes (b : RouteId) (hb : b ∈ routes) : ∃ j, p.tables.numbering.indexOf b = .ok j := by
    simp only [rankingForRoutes, Fault.bind_eq_ok_iff] at hr
    obtain ⟨indexes, hindexes, -⟩ := hr
    exact Numbering.exists_indexOf_of_mapM hindexes b hb
  refine Classical.axiomOfChoice (r := fun id fewest =>
    (∃ i, p.tables.numbering.indexOf id = .ok i) →
      Asking.Ensures r.Remembers (r.fewestChanges id) fun c => fewest = c) fun id => ?_
  by_cases hid : ∃ i, p.tables.numbering.indexOf id = .ok i
  · obtain ⟨fewest, -, -, hfewest⟩ :=
      exists_isFewest_of_remembers ht hanswers hr hroutes .nothing hid
    refine ⟨fewest, fun _ m hm => ?_⟩
    obtain ⟨c, m', hrun, hc⟩ := exists_isFewest_of_remembers ht hanswers hr hroutes hm hid
    have hm' := hm.asked id
    rw [hrun] at hm'
    exact ⟨c, m', hrun, hfewest.unique hc, hm'⟩
  · exact ⟨.unreachable, fun h => absurd h hid⟩

/-- What is sorted does not depend on what was asked before. -/
theorem exists_outcome {fewest : RouteId → Changes}
    (hfewest : ∀ id, (∃ i, p.tables.numbering.indexOf id = .ok i) →
      Asking.Ensures r.Remembers (r.fewestChanges id) fun c => fewest id = c) :
    ∃ outcome, (∀ m, r.Remembers m → ((r.sort route items).run m).1 = outcome) ∧
      ∀ sorted, outcome = .ok sorted →
        RankedBy (fun item => fewest (route item)) items sorted := by
  by_cases hitems : ∀ item ∈ items, ∃ i, p.tables.numbering.indexOf (route item) = .ok i
  · have hsort := Ranking.ensures_sort fun item hitem => hfewest (route item) (hitems item hitem)
    refine ⟨.ok (items.mergeSort fun a b => decide (fewest (route a) ≤ fewest (route b))),
      fun m hm => ?_, fun sorted hsorted => ?_⟩
    · obtain ⟨sorted, m', hrun, rfl, -⟩ := hsort m hm
      rw [hrun]
    · rw [← Except.ok.inj hsorted]
      exact rankedBy_mergeSort (fun item => fewest (route item)) items
  · obtain ⟨before, item, after, rfl, hbefore, hitem⟩ := Ranking.exists_first hitems
    refine ⟨_, fun m _ => refuses_sort route ht hr hbefore hitem m, fun sorted hsorted => ?_⟩
    cases hsorted

end Built

/-- **A ranking sorts items by the fewest changes from their routes.**  Whatever it remembers and
whatever the timetable answers, it refuses exactly for the first item whose route has no index, and
otherwise sorts the items by the changes that it answers from then on.  If the timetable has one
answer for the interchanges of a station, as it has where no station is listed twice, these are
always the same, whatever the ranking was asked before, and so is what it sorts. -/
theorem sort_of_build {source : RouteSource} {tables : Connections}
    (htables : Connections.build source interchanges = .ok tables) {service : Service}
    (hr : (Planner.mk tables service).rankingForRoutes routes scope = .ok r) :
    (∀ m, (∃ sorted, ((r.sort route items).run m).1 = .ok sorted) ↔
      ∀ item ∈ items, ∃ i, tables.numbering.indexOf (route item) = .ok i) ∧
    (∀ m before item after, items = before ++ item :: after →
      (∀ earlier ∈ before, ∃ i, tables.numbering.indexOf (route earlier) = .ok i) →
      (¬ ∃ i, tables.numbering.indexOf (route item) = .ok i) →
      ((r.sort route items).run m).1 = .error (.routeNotIndexed (route item))) ∧
    (∀ m sorted m', (r.sort route items).run m = (.ok sorted, m') →
      ∃ fewest : RouteId → Changes,
        (∀ item ∈ items,
          (r.fewestChanges (route item)).run m' = (.ok (fewest (route item)), m')) ∧
        RankedBy (fun item => fewest (route item)) items sorted) ∧
    (service.Agrees scope interchanges → ∃ fewest : RouteId → Changes, ∀ m, r.Remembers m →
      (∀ id, (∃ i, tables.numbering.indexOf id = .ok i) →
        ((r.fewestChanges id).run m).1 = .ok (fewest id)) ∧
      ((r.sort route items).run m).1 = (r.sort route items).result ∧
      ∀ sorted, ((r.sort route items).run m).1 = .ok sorted →
        RankedBy (fun item => fewest (route item)) items sorted) := by
  obtain ⟨-, ht⟩ := Connections.isBuilt_of_build htables
  refine ⟨exists_sort_iff route items ht hr, ?_, fun m sorted m' => Ranking.rankedBy_of_sort,
    fun hagrees => ?_⟩
  · rintro m before item after rfl hbefore hitem
    exact refuses_sort route ht hr hbefore hitem m
  · obtain ⟨answer, hanswers⟩ := hagrees.exists_answersAt
    obtain ⟨fewest, hfewest⟩ := exists_fewest ht hr hanswers
    obtain ⟨outcome, houtcome, hranked⟩ := exists_outcome route items ht hr hfewest
    refine ⟨fewest, fun m hm => ⟨fun id hid => ?_, ?_, fun sorted hsorted => ?_⟩⟩
    · obtain ⟨c, m', hrun, rfl, -⟩ := hfewest id hid m hm
      rw [hrun]
    · exact (houtcome m hm).trans (houtcome .empty .nothing).symm
    · exact hranked sorted ((houtcome m hm).symm.trans hsorted)

end Planner

namespace SampleCity

/-- The lines of the city as they come, one of them twice. -/
def askedLines : List RouteId :=
  [named "PINK", named "BLUE", named "GREEN", named "PINK"]

/-- Two lines that the city does not have, after one that it has. -/
def askedInVain : List RouteId :=
  [named "BLUE", named "RED", named "ROSE"]

/-- The lines are ranked by their changes to the green line, and the first line that the city does
not have is refused. -/
theorem sort_sampleCity : ∃ tables r,
    Connections.build network.source network.interchanges = .ok tables ∧
    (Planner.mk tables network.service).rankingForRoutes [named "GREEN"] scope = .ok r ∧
    (∃ fewest : RouteId → Changes, ∃ sorted, (r.sort id askedLines).result = .ok sorted ∧
      RankedBy fewest askedLines sorted) ∧
    (r.sort id askedInVain).result = .error (.routeNotIndexed (named "RED")) := by
  have hsize : network.routes.size ≤ maxRoutes := by decide
  obtain ⟨tables, htables⟩ := Network.exists_connections (Network.known_ofEdits _) hsize
  have hnumbering : tables.numbering = cityNumbering :=
    Except.ok.inj ((Connections.isBuilt_of_build htables).1.symm.trans build_city)
  have hgreen : ∀ id ∈ [named "GREEN"], ∃ i, tables.numbering.indexOf id = .ok i := by
    rw [hnumbering]
    intro id hid
    obtain rfl := List.mem_singleton.mp hid
    exact ⟨1, rfl⟩
  have hlines : ∀ id ∈ askedLines, ∃ i, tables.numbering.indexOf id = .ok i := by
    rw [hnumbering]
    intro id hid
    simp only [askedLines, List.mem_cons, List.not_mem_nil, or_false] at hid
    rcases hid with rfl | rfl | rfl | rfl
    · exact ⟨2, rfl⟩
    · exact ⟨0, rfl⟩
    · exact ⟨1, rfl⟩
    · exact ⟨2, rfl⟩
  obtain ⟨r, hr⟩ := Planner.exists_rankingForRoutes (p := ⟨tables, network.service⟩) hgreen scope
  obtain ⟨hsort, -, -, hranked⟩ := Planner.sort_of_build id askedLines htables hr
  obtain ⟨-, hrefuse, -⟩ := Planner.sort_of_build id askedInVain htables hr
  refine ⟨tables, r, htables, hr, ?_, ?_⟩
  · obtain ⟨fewest, hfewest⟩ := hranked
      (network.service.agrees_of_nodup scope (by decide))
    obtain ⟨sorted, hsorted⟩ := (hsort .empty).mpr hlines
    exact ⟨fewest, sorted, hsorted, (hfewest .empty .nothing).2.2 sorted hsorted⟩
  · refine hrefuse .empty [named "BLUE"] (named "RED") [named "ROSE"] rfl ?_ ?_
    · rw [hnumbering]
      intro id hid
      obtain rfl := List.mem_singleton.mp hid
      exact ⟨0, rfl⟩
    · rw [hnumbering]
      rintro ⟨i, hi⟩
      cases hi

end SampleCity

/-! ## A station listed twice -/

namespace TwoPlatforms

open Calendar SampleCity

/-- A tram line that runs all year. -/
def line (name : String) : Route :=
  ⟨named name, name, .tram, year, .all⟩

def lines : List Route := ["A", "B", "C", "D"].map line

def source : RouteSource :=
  ⟨lines, lines.length, fun id => lines.find? fun r => r.id = id⟩

/-- A platform of a station, at which two lines meet. -/
def platform (station first second : String) : Interchange :=
  ⟨named station, [line first, line second], [line first, line second]⟩

/-- Every line meets D, and two of them do so on different platforms of `S`. -/
def interchanges : List Interchange :=
  [platform "S" "A" "D", platform "S" "B" "D", platform "T" "C" "D"]

/-- No platform is available at which B calls. -/
def service : Service where
  pickups _ _ := []
  dropoffs _ _ := []
  isAvailable i _ := i.pickups.all fun r => r.id ≠ named "B"
  isClosed _ _ := false
  areNeighbours _ _ := false

def numbering : Numbering := .ofSorted lines

theorem build_numbering : Numbering.build source = .ok numbering := by
  have hroutes : source.routes = lines := rfl
  rw [Numbering.build_of_le (by rw [hroutes]; decide), hroutes,
    List.mergeSort_of_pairwise (by decide)]
  rfl

def degrees : Degrees :=
  (Degrees.build numbering numbering.sharedDates interchanges).toOption.get rfl

def tables : Connections where
  degrees
  stations := (ChangeStations.build numbering interchanges).toOption.get rfl
  vias := .build numbering.sharedDates degrees

theorem build_tables : Connections.build source interchanges = .ok tables := by
  rw [Connections.build, build_numbering]
  rfl

/-- The ranking by the changes to D. -/
def ranking : Ranking :=
  ⟨(Planner.mk tables service).enquiry scope, [3]⟩

theorem mergeSort_pair {α : Type} {le : α → α → Bool} {a b : α} (h : le a b = false) :
    [a, b].mergeSort le = [b, a] := by
  simp [List.mergeSort, h]

/-- **What is sorted depends on what was asked before.**  Asked first, B finds its platform closed
and is sorted behind C.  After A has found the other platform open, so does B, and it stays before
C. -/
theorem sort_depends_on_memory :
    Connections.build source interchanges = .ok tables ∧
    (Planner.mk tables service).rankingForRoutes [named "D"] scope = .ok ranking ∧
    (ranking.sort id [named "B", named "C"]).result = .ok [named "C", named "B"] ∧
    ((ranking.sort id [named "B", named "C"]).run
      ((ranking.fewestChanges (named "A")).run .empty).2).1 = .ok [named "B", named "C"] := by
  refine ⟨build_tables, rfl, ?_, ?_⟩
  · have hranked : ((ranking.withChanges id [named "B", named "C"]).run .empty).1 =
        .ok [(.unreachable, named "B"), (.exactly 1, named "C")] := rfl
    rw [Ranking.sort, Asking.result, Asking.run_bind, hranked]
    dsimp only [ExceptT.bindCont]
    rw [mergeSort_pair (by decide)]
    rfl
  · have hranked : ((ranking.withChanges id [named "B", named "C"]).run
        ((ranking.fewestChanges (named "A")).run .empty).2).1 =
        .ok [(.exactly 1, named "B"), (.exactly 1, named "C")] := rfl
    rw [Ranking.sort, Asking.run_bind, hranked]
    dsimp only [ExceptT.bindCont]
    rw [List.mergeSort_of_pairwise (by decide)]
    rfl

end TwoPlatforms
end TransitChanges
