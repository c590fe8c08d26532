import TransitChanges.Proofs.Consistency

/-!
# Every query is told by the changes between two routes

Changes can be asked about in three ways: between two routes, between two places, and from one route
after another to fixed destinations.  The searches behind them take different short cuts, and a
ranking goes on remembering stations from one question to the next.  None of this shows: over built
tables and a timetable with one answer for the interchanges of a station, each answer is the least
of what separate queries about two routes would answer (`Planner.IsFewest`).

What a ranking may remember is whatever some questions before have left behind, those that it
refused included (`Ranking.Remembers`).  All of it is faithful, because a step of a query that asks
stations keeps a faithful memory even where it refuses (`Asking.Keeps`).

* `isFewest_of_le_iff`: a search that is told by what it is no worse than finds the least answer.
* `faithful_of_remembers`: what a ranking remembers is faithful.
* `exists_isFewest_of_remembers`: a ranking answers with the least, whatever it was asked before.
* `toldByPairs_of_build`: the three ways to ask, over a network.
-/

namespace TransitChanges

open Bits

namespace Changes

/-- An answer that is told by what it is no worse than is the least of some answers, and it is one
of them if there are any. -/
theorem isLeast_of_le_iff (answers : Changes → Prop) {m : Changes}
    (h : ∀ c, m ≤ c ↔ unreachable ≤ c ∨ ∃ a, answers a ∧ a ≤ c) :
    (∀ a, answers a → m ≤ a) ∧ (m = unreachable ∨ answers m) := by
  have hle (a : Changes) (ha : answers a) : m ≤ a := (h a).mpr (.inr ⟨a, ha, le_refl a⟩)
  refine ⟨hle, ?_⟩
  rcases (h m).mp (le_refl m) with hnever | ⟨a, ha, hbest⟩
  · exact .inl (eq_unreachable_of_le hnever)
  · rw [le_antisymm (hle a ha) hbest]
    exact .inr ha

end Changes

/-! ## What is kept -/

namespace Asking

variable {α β : Type} {known : Memory → Prop}

/-- From every known memory the step leaves a known one, whether it answers or refuses. -/
def Keeps (known : Memory → Prop) (step : Asking α) : Prop :=
  ∀ m, known m → known (step.run m).2

namespace Keeps

theorem of_ensures {step : Asking α} {answer : α → Prop} (h : Ensures known step answer) :
    Keeps known step := by
  intro m hm
  obtain ⟨a, m', hrun, -, hm'⟩ := h m hm
  rw [hrun]
  exact hm'

theorem pure (a : α) : Keeps known (Pure.pure a) := fun _ hm => hm

theorem ofExcept (x : Except Fault α) : Keeps known (Asking.ofExcept x) := by
  cases x with
  | ok a => exact pure a
  | error fault => exact fun _ hm => hm

theorem bind {step : Asking α} {next : α → Asking β} (h : Keeps known step)
    (h' : ∀ a, Keeps known (next a)) : Keeps known (step >>= next) := by
  intro m hm
  have hm' := h m hm
  show known (ExceptT.bindCont next (step.run m).1 (step.run m).2).2
  cases (step.run m).1 with
  | ok a => exact h' a _ hm'
  | error fault => exact hm'

end Keeps
end Asking

namespace Enquiry

variable {e : Enquiry} {answer : StationId → Bool} {interchanges : List Interchange}
  (ht : e.planner.tables.IsBuilt interchanges)
  (h : e.planner.service.AnswersAt e.scope interchanges answer)

include ht h in
/-- The changes of a pair leave a faithful memory, even where the tables refuse to expand it. -/
theorem keeps_changesFor (pair : RoutePair) :
    (e.changesFor pair).Keeps (Memory.Faithful answer) := by
  cases hpair : pair.isSame with
  | true =>
    rw [changesFor, if_pos hpair]
    exact .pure _
  | false =>
    cases hways : e.planner.tables.waysFor e.gate e.scope.modes pair with
    | ok ways =>
      exact .of_ensures (ensures_changesFor_of hpair hways fun i hi =>
        Service.ensures_operates (h i (ht.mem_of_waysFor hways hi)))
    | error fault =>
      rw [changesFor, hpair, if_neg Bool.false_ne_true, hways]
      exact fun _ hm => hm

include ht h in
theorem keeps_fewestTo (start : Nat) (best : Changes) (destinations : List Nat) :
    (e.fewestTo start best destinations).Keeps (Memory.Faithful answer) := by
  induction destinations generalizing best with
  | nil => exact .pure best
  | cons j destinations ih =>
    exact (keeps_changesFor ht h ⟨start, j⟩).bind fun c => ih (best.fewer c)

/-- The search from one route to given indexes finds the least answer. -/
theorem ensures_fewestTo {known : Memory → Prop} {cost : Nat → Nat → Changes}
    (hcost : ∀ i j, Asking.Ensures known (e.changesFor ⟨i, j⟩) fun c => c = cost i j)
    (start : Nat) (best : Changes) (destinations : List Nat) :
    Asking.Ensures known (e.fewestTo start best destinations) fun fewest =>
      ∀ c, fewest ≤ c ↔ best ≤ c ∨ ∃ j ∈ destinations, cost start j ≤ c := by
  induction destinations generalizing best with
  | nil =>
    refine .pure fun c => ?_
    simp
  | cons j destinations ih =>
    refine (hcost start j).bind ?_
    rintro _ rfl
    refine (ih (best.fewer (cost start j))).mono fun fewest hfewest c => ?_
    rw [hfewest, Changes.fewer_le_iff, List.exists_mem_cons_iff, or_assoc]

end Enquiry

/-! ## What a ranking remembers -/

namespace Ranking

/-- What a ranking may remember: nothing at first, and then what further questions leave behind. -/
inductive Remembers (r : Ranking) : Memory → Prop where
  | nothing : Remembers r .empty
  | asked {m : Memory} (h : Remembers r m) (route : RouteId) :
      Remembers r ((r.fewestChanges route).run m).2
  | sorted {m : Memory} (h : Remembers r m) {α : Type} (route : α → RouteId) (items : List α) :
      Remembers r ((r.sort route items).run m).2

variable {r : Ranking} {answer : StationId → Bool} {interchanges : List Interchange}
  (ht : r.enquiry.planner.tables.IsBuilt interchanges)
  (h : r.enquiry.planner.service.AnswersAt r.enquiry.scope interchanges answer)
include ht h

theorem keeps_fewestChanges (route : RouteId) :
    (r.fewestChanges route).Keeps (Memory.Faithful answer) := by
  refine (Asking.Keeps.ofExcept _).bind fun start => ?_
  split
  · exact .pure _
  · exact Enquiry.keeps_fewestTo ht h start _ _

theorem keeps_sort {α : Type} (route : α → RouteId) (items : List α) :
    (r.sort route items).Keeps (Memory.Faithful answer) := by
  have hranked : (r.withChanges route items).Keeps (Memory.Faithful answer) := by
    induction items with
    | nil => exact .pure []
    | cons item items ih =>
      refine (keeps_fewestChanges ht h (route item)).bind fun changes => ?_
      exact ih.bind fun rest => .pure _
  exact hranked.bind fun ranked => .pure _

/-- **What a ranking remembers is faithful**, whatever it was asked. -/
theorem faithful_of_remembers {m : Memory} (hm : r.Remembers m) : m.Faithful answer := by
  induction hm with
  | nothing => exact Memory.faithful_empty answer
  | asked _ route ih => exact keeps_fewestChanges ht h route _ ih
  | sorted _ route items ih => exact keeps_sort ht h route items _ ih

end Ranking

/-! ## The fewest changes of some pairs -/

namespace Planner

/-- An answer is the fewest changes from the routes of one list to those of another: none of these
pairs has fewer, and some pair has as many unless the answer is that one cannot get there. -/
structure IsFewest (p : Planner) (scope : Scope) (firsts seconds : List RouteId)
    (fewest : Changes) : Prop where
  le {a b : RouteId} (ha : a ∈ firsts) (hb : b ∈ seconds) :
    ∃ c, p.changesBetweenRoutes a b scope = .ok c ∧ fewest ≤ c
  attained : fewest = .unreachable ∨
    ∃ a ∈ firsts, ∃ b ∈ seconds, p.changesBetweenRoutes a b scope = .ok fewest

variable {p : Planner} {interchanges : List Interchange} {scope : Scope}
  {answer : StationId → Bool}

/-- A search that is told by what it is no worse than finds the fewest changes. -/
theorem isFewest_of_le_iff {firsts seconds : List RouteId} {fewest : Changes}
    (hfound : ∀ a ∈ firsts, ∀ b ∈ seconds, ∃ c, p.changesBetweenRoutes a b scope = .ok c)
    (h : ∀ c, fewest ≤ c ↔ .unreachable ≤ c ∨ ∃ a ∈ firsts, ∃ b ∈ seconds, ∃ c',
      p.changesBetweenRoutes a b scope = .ok c' ∧ c' ≤ c) :
    p.IsFewest scope firsts seconds fewest := by
  obtain ⟨hle, hattained⟩ := Changes.isLeast_of_le_iff (m := fewest)
    (fun c => ∃ a ∈ firsts, ∃ b ∈ seconds, p.changesBetweenRoutes a b scope = .ok c)
    fun c => by
      rw [h]
      refine or_congr_right ⟨?_, ?_⟩
      · rintro ⟨a, ha, b, hb, c', hc', hle⟩
        exact ⟨c', ⟨a, ha, b, hb, hc'⟩, hle⟩
      · rintro ⟨c', ⟨a, ha, b, hb, hc'⟩, hle⟩
        exact ⟨a, ha, b, hb, c', hc', hle⟩
  refine ⟨fun {a b} ha hb => ?_, hattained⟩
  obtain ⟨c, hc⟩ := hfound a ha b hb
  exact ⟨c, hc, hle c ⟨a, ha, b, hb, hc⟩⟩

namespace IsFewest

variable {firsts seconds : List RouteId} {fewest fewest' : Changes}

theorem le_of_isFewest (h : p.IsFewest scope firsts seconds fewest)
    (h' : p.IsFewest scope firsts seconds fewest') : fewest ≤ fewest' := by
  rcases h'.attained with hnever | ⟨a, ha, b, hb, hchanges⟩
  · rw [hnever]
    exact Changes.le_unreachable fewest
  · obtain ⟨c, hc, hle⟩ := h.le ha hb
    obtain rfl := Except.ok.inj (hc.symm.trans hchanges)
    exact hle

/-- Only one answer is the fewest. -/
theorem unique (h : p.IsFewest scope firsts seconds fewest)
    (h' : p.IsFewest scope firsts seconds fewest') : fewest = fewest' :=
  Changes.le_antisymm (h.le_of_isFewest h') (h'.le_of_isFewest h)

end IsFewest

section Built

variable (ht : p.tables.IsBuilt interchanges)
  (hanswers : p.service.AnswersAt scope interchanges answer)

include ht hanswers in
/-- Each pair of indexes has its changes, which are those that are asked for out of a faithful
memory and those between the two routes. -/
theorem exists_costs : ∃ cost : Nat → Nat → Changes,
    (∀ i j, Asking.Ensures (Memory.Faithful answer) ((p.enquiry scope).changesFor ⟨i, j⟩)
      fun c => c = cost i j) ∧
    ∀ {a b : RouteId} {i j : Nat}, p.tables.numbering.indexOf a = .ok i →
      p.tables.numbering.indexOf b = .ok j →
        p.changesBetweenRoutes a b scope = .ok (cost i j) := by
  choose cost hcost using fun i j =>
    Enquiry.exists_changesNow_of_isBuilt (e := p.enquiry scope) ht i j
  refine ⟨cost, fun i j => Enquiry.ensures_changesFor ht hanswers (hcost i j), ?_⟩
  intro a b i j hi hj
  rw [changesBetweenRoutes_eq_changesNow ht hanswers hi hj, hcost]

include ht hanswers in
/-- The search between two lists of indexed routes finds the fewest changes. -/
theorem exists_isFewest_of_fewestBetween (starts destinations : List Route)
    (hstarts : ∀ r ∈ starts, ∃ i, p.tables.numbering.indexOf r.id = .ok i)
    (hdestinations : ∀ r ∈ destinations, ∃ j, p.tables.numbering.indexOf r.id = .ok j) :
    ∃ fewest, ((p.enquiry scope).fewestBetween destinations .unreachable starts).result =
        .ok fewest ∧
      p.IsFewest scope (starts.map Route.id) (destinations.map Route.id) fewest := by
  obtain ⟨cost, hcost, hpair⟩ := exists_costs ht hanswers
  obtain ⟨fewest, hresult, hfewest⟩ := (Enquiry.ensures_fewestBetween hcost .unreachable
    hdestinations hstarts).result (Memory.faithful_empty answer)
  refine ⟨fewest, hresult, isFewest_of_le_iff ?_ fun c => ?_⟩
  · intro a ha b hb
    obtain ⟨r, hr, rfl⟩ := List.mem_map.mp ha
    obtain ⟨s, hs, rfl⟩ := List.mem_map.mp hb
    obtain ⟨i, hi⟩ := hstarts r hr
    obtain ⟨j, hj⟩ := hdestinations s hs
    exact ⟨_, hpair hi hj⟩
  · rw [hfewest]
    simp only [List.mem_map, exists_exists_and_eq_and]
    refine or_congr_right ⟨?_, ?_⟩
    · rintro ⟨r, hr, i, hi, s, hs, j, hj, hle⟩
      exact ⟨r, hr, s, hs, cost i j, hpair hi hj, hle⟩
    · rintro ⟨r, hr, s, hs, c', hc', hle⟩
      obtain ⟨i, hi⟩ := hstarts r hr
      obtain ⟨j, hj⟩ := hdestinations s hs
      rw [hpair hi hj] at hc'
      cases hc'
      exact ⟨r, hr, i, hi, s, hs, j, hj, hle⟩

/-! ## Rankings -/

theorem mem_of_mapM_indexOf {n : Numbering} {routes : List RouteId} {indexes : List Nat}
    (h : routes.mapM n.indexOf = .ok indexes) {j : Nat} :
    j ∈ indexes ↔ ∃ route ∈ routes, n.indexOf route = .ok j := by
  induction routes generalizing indexes with
  | nil =>
    cases h
    simp
  | cons route routes ih =>
    simp only [List.mapM_cons, Fault.bind_eq_ok_iff] at h
    obtain ⟨i, hi, rest, hrest, h⟩ := h
    cases h
    rw [List.mem_cons, ih hrest, List.exists_mem_cons_iff, hi, Except.ok.injEq, eq_comm]

/-- The destinations of a ranking are the indexes of the routes that it was set up for. -/
theorem mem_destinations_iff {routes : List RouteId} {r : Ranking}
    (h : p.rankingForRoutes routes scope = .ok r) {j : Nat} :
    j ∈ r.destinations ↔ ∃ route ∈ routes, p.tables.numbering.indexOf route = .ok j := by
  simp only [rankingForRoutes, Fault.bind_eq_ok_iff] at h
  obtain ⟨indexes, hindexes, h⟩ := h
  cases h
  rw [Ranking.mem_ascending, mem_of_mapM_indexOf hindexes]

/-- Two names of one index are no changes apart. -/
theorem changesBetweenRoutes_of_indexOf_eq {a b : RouteId} {i : Nat}
    (ha : p.tables.numbering.indexOf a = .ok i) (hb : p.tables.numbering.indexOf b = .ok i) :
    p.changesBetweenRoutes a b scope = .ok (.exactly 0) := by
  rw [changesBetweenRoutes, Numbering.pairOf_eq_ok ha hb]
  show (if (RoutePair.mk i i).isSame = true then _ else _) = _
  rw [if_pos (by simp [RoutePair.isSame])]
  rfl

include ht hanswers in
/-- Out of a faithful memory a ranking answers with the fewest changes. -/
theorem ensures_isFewest {routes : List RouteId} {r : Ranking}
    (hr : p.rankingForRoutes routes scope = .ok r)
    (hroutes : ∀ b ∈ routes, ∃ j, p.tables.numbering.indexOf b = .ok j) {route : RouteId}
    (hroute : ∃ i, p.tables.numbering.indexOf route = .ok i) :
    Asking.Ensures (Memory.Faithful answer) (r.fewestChanges route)
      (p.IsFewest scope [route] routes) := by
  have hmem {j : Nat} := mem_destinations_iff hr (j := j)
  obtain ⟨cost, hcost, hpair⟩ := exists_costs ht hanswers
  obtain ⟨i, hi⟩ := hroute
  rw [Ranking.fewestChanges, enquiry_of_rankingForRoutes hr]
  refine (Asking.Ensures.ofExcept hi rfl).bind ?_
  rintro _ rfl
  split
  · next hfound =>
    -- a destination itself needs no change, and no answer is better than that
    obtain ⟨b, hb, hj⟩ := hmem.mp (List.contains_iff_mem.mp hfound)
    refine .pure ⟨fun {a b'} ha hb' => ?_, .inr ⟨route, List.mem_singleton_self route, b, hb, ?_⟩⟩
    · obtain ⟨j, hj⟩ := hroutes b' hb'
      rw [List.mem_singleton.mp ha]
      exact ⟨_, hpair hi hj, Changes.exactly_zero_le _⟩
    · exact changesBetweenRoutes_of_indexOf_eq hi hj
  · refine (Enquiry.ensures_fewestTo hcost i .unreachable r.destinations).mono
      fun fewest hfewest => isFewest_of_le_iff ?_ fun c => ?_
    · intro a ha b hb
      obtain ⟨j, hj⟩ := hroutes b hb
      rw [List.mem_singleton.mp ha]
      exact ⟨_, hpair hi hj⟩
    · rw [hfewest]
      simp only [List.mem_singleton, exists_eq_left]
      refine or_congr_right ⟨?_, ?_⟩
      · rintro ⟨j, hj, hle⟩
        obtain ⟨b, hb, hj⟩ := hmem.mp hj
        exact ⟨b, hb, cost i j, hpair hi hj, hle⟩
      · rintro ⟨b, hb, c', hc', hle⟩
        obtain ⟨j, hj⟩ := hroutes b hb
        rw [hpair hi hj] at hc'
        cases hc'
        exact ⟨j, hmem.mpr ⟨b, hb, hj⟩, hle⟩

include ht hanswers in
/-- **A ranking answers with the fewest changes**, whatever it remembers. -/
theorem exists_isFewest_of_remembers {routes : List RouteId} {r : Ranking}
    (hr : p.rankingForRoutes routes scope = .ok r)
    (hroutes : ∀ b ∈ routes, ∃ j, p.tables.numbering.indexOf b = .ok j) {m : Memory}
    (hm : r.Remembers m) {route : RouteId}
    (hroute : ∃ i, p.tables.numbering.indexOf route = .ok i) :
    ∃ fewest m', (r.fewestChanges route).run m = (.ok fewest, m') ∧
      p.IsFewest scope [route] routes fewest := by
  have hranking : r.enquiry.planner.service.AnswersAt r.enquiry.scope interchanges answer := by
    rw [enquiry_of_rankingForRoutes hr]
    exact hanswers
  have hfaithful := Ranking.faithful_of_remembers (isBuilt_of_rankingForRoutes ht hr) hranking hm
  obtain ⟨fewest, m', hrun, hfewest, -⟩ :=
    ensures_isFewest ht hanswers hr hroutes hroute m hfaithful
  exact ⟨fewest, m', hrun, hfewest⟩

end Built

/-! ## Over a network -/

end Planner

namespace Network

/-- There are stations in a set, and all of them are closed. -/
def WhollyClosed (net : Network) (stations : StationSet) (date : Calendar.Date) : Prop :=
  (∃ s, s ∈ stations) ∧ ∀ s ∈ stations, net.isClosed s date = true

theorem allClosed_service_iff {net : Network} {stations : StationSet} {date : Calendar.Date} :
    net.service.allClosed stations date = true ↔ net.WhollyClosed stations date := by
  rw [Service.allClosed, Bool.and_eq_true, Bool.not_eq_true', WhollyClosed, List.all_eq_true,
    Std.TreeSet.isEmpty_eq_false_iff_exists_mem]
  simp only [Std.TreeSet.mem_toList]
  rfl

theorem anyNeighbours_service_iff {net : Network} {starts destinations : StationSet} :
    net.service.anyNeighbours starts destinations = true ↔
      ∃ a ∈ starts, ∃ b ∈ destinations, net.areNeighbours a b = true := by
  simp only [Service.anyNeighbours, List.any_eq_true, Std.TreeSet.mem_toList]
  rfl

instance (net : Network) (stations : StationSet) (date : Calendar.Date) :
    Decidable (net.WhollyClosed stations date) :=
  decidable_of_iff _ allClosed_service_iff

/-- The changes that a set of stations costs for being wholly closed. -/
def closedEnd (net : Network) (stations : StationSet) (date : Calendar.Date) : Nat :=
  if net.WhollyClosed stations date then 1 else 0

theorem toNat_allClosed_service (net : Network) (stations : StationSet) (date : Calendar.Date) :
    (net.service.allClosed stations date).toNat = net.closedEnd stations date := by
  unfold closedEnd
  split
  · next hclosed => rw [allClosed_service_iff.mpr hclosed, Bool.toNat_true]
  · next hopen => rw [Bool.eq_false_iff.mpr fun h => hopen (allClosed_service_iff.mp h),
      Bool.toNat_false]

end Network

namespace Planner

/-- A ranking answers about every indexed route with the fewest changes to the routes of a list,
whatever it was asked before. -/
def RanksBy (p : Planner) (scope : Scope) (routes : List RouteId) (r : Ranking) : Prop :=
  ∀ m, r.Remembers m → ∀ route, (∃ i, p.tables.numbering.indexOf route = .ok i) →
    ∃ fewest m', (r.fewestChanges route).run m = (.ok fewest, m') ∧
      p.IsFewest scope [route] routes fewest

/-- Places and rankings are told by the changes between two routes. -/
structure ToldByPairs (p : Planner) (net : Network) : Prop where
  /-- No change is needed between neighbours. -/
  neighbours {starts destinations : StationSet} (scope : Scope)
    (h : ∃ a ∈ starts, ∃ b ∈ destinations, net.areNeighbours a b = true) :
    p.changesBetween starts destinations scope = .ok (.exactly 0)
  /-- Between other places it is the fewest changes over their routes, and one more for either place
  that is wholly closed. -/
  places {starts destinations : StationSet} (scope : Scope)
    (h : ¬ ∃ a ∈ starts, ∃ b ∈ destinations, net.areNeighbours a b = true) :
    ∃ fewest, p.IsFewest scope ((net.service.pickupsAt starts scope).map Route.id)
        ((net.service.dropoffsAt destinations scope).map Route.id) fewest ∧
      p.changesBetween starts destinations scope =
        .ok (fewest.plus (net.closedEnd starts scope.date + net.closedEnd destinations scope.date))
  /-- Routes are ranked by the fewest changes to the routes that set down at a place. -/
  rankingFor (destinations : StationSet) (scope : Scope) :
    ∃ r, p.rankingFor destinations scope = .ok r ∧
      p.RanksBy scope ((net.service.dropoffsAt destinations scope).map Route.id) r
  /-- Routes are ranked by the fewest changes to given routes. -/
  rankingForRoutes {routes : List RouteId} (scope : Scope)
    (h : ∀ route ∈ routes, ∃ i, p.tables.numbering.indexOf route = .ok i) :
    ∃ r, p.rankingForRoutes routes scope = .ok r ∧ p.RanksBy scope routes r

section Network

variable {p : Planner} {interchanges : List Interchange} {net : Network} (hknown : net.Known)
  (hn : Numbering.build net.source = .ok p.tables.numbering)
  (ht : p.tables.IsBuilt interchanges) (hservice : p.service = net.service)

include hknown hn in
theorem indexed_of_mem_dropoffsAt (destinations : StationSet) (scope : Scope) :
    ∀ route ∈ (net.service.dropoffsAt destinations scope).map Route.id,
      ∃ j, p.tables.numbering.indexOf route = .ok j := by
  intro route hroute
  obtain ⟨r, hr, rfl⟩ := List.mem_map.mp hroute
  rw [Network.dropoffsAt_service] at hr
  exact Network.exists_indexOf_of_mem_routesAtAny hknown hn hr

include ht hservice in
theorem exists_ranksBy {routes : List RouteId} (scope : Scope)
    (h : ∀ route ∈ routes, ∃ i, p.tables.numbering.indexOf route = .ok i) :
    ∃ r, p.rankingForRoutes routes scope = .ok r ∧ p.RanksBy scope routes r := by
  obtain ⟨r, hr⟩ := exists_rankingForRoutes h scope
  refine ⟨r, hr, fun m hm route hroute => ?_⟩
  exact exists_isFewest_of_remembers ht (Network.answersAt_of_eq_service hservice scope) hr h hm
    hroute

include hknown hn ht hservice in
theorem exists_isFewest_of_places {starts destinations : StationSet} (scope : Scope)
    (h : ¬ ∃ a ∈ starts, ∃ b ∈ destinations, net.areNeighbours a b = true) :
    ∃ fewest, p.IsFewest scope ((net.service.pickupsAt starts scope).map Route.id)
        ((net.service.dropoffsAt destinations scope).map Route.id) fewest ∧
      p.changesBetween starts destinations scope =
        .ok (fewest.plus (net.closedEnd starts scope.date + net.closedEnd destinations scope.date))
    := by
  have hindexed {wanted : Calling → Bool} {stations : StationSet} (r : Route)
      (hr : r ∈ net.routesAtAny wanted stations scope) :
      ∃ i, p.tables.numbering.indexOf r.id = .ok i :=
    Network.exists_indexOf_of_mem_routesAtAny hknown hn hr
  obtain ⟨fewest, hresult, hfewest⟩ := exists_isFewest_of_fewestBetween ht
    (Network.answersAt_of_eq_service hservice scope) (net.service.pickupsAt starts scope)
    (net.service.dropoffsAt destinations scope) hindexed hindexed
  refine ⟨fewest, hfewest, ?_⟩
  rw [← Network.anyNeighbours_service_iff] at h
  unfold changesBetween
  rw [hservice, if_neg h]
  dsimp only
  split
  · next hnone =>
    -- without routes at either end there is no pair that could be attained
    have hunreachable : fewest = .unreachable := by
      refine hfewest.attained.resolve_right ?_
      rintro ⟨a, ha, b, hb, -⟩
      rcases hnone with hnone | hnone
      · rw [hnone] at ha
        cases ha
      · rw [hnone] at hb
        cases hb
    rw [hunreachable]
    rfl
  · rw [hresult, Network.toNat_allClosed_service, Network.toNat_allClosed_service]
    rfl

include hknown hn ht hservice in
theorem toldByPairs_of_isBuilt : p.ToldByPairs net where
  neighbours scope h := by
    rw [← Network.anyNeighbours_service_iff] at h
    rw [changesBetween, hservice, if_pos h]
  places := exists_isFewest_of_places hknown hn ht hservice
  rankingFor destinations scope := by
    rw [rankingFor, hservice]
    exact exists_ranksBy ht hservice scope (indexed_of_mem_dropoffsAt hknown hn destinations scope)
  rankingForRoutes := exists_ranksBy ht hservice

end Network

/-- **The three ways to ask agree.**  Over the tables of a network the changes between two places
are the fewest over the routes at both, and one more for either place that is wholly closed; and a
ranking, whatever it was asked before, tells the fewest changes from each route to its
destinations. -/
theorem toldByPairs_of_build (edits : List Edit) {tables : Connections}
    (htables : Connections.build (Network.ofEdits edits).source
      (Network.ofEdits edits).interchanges = .ok tables) :
    (Planner.mk tables (Network.ofEdits edits).service).ToldByPairs (.ofEdits edits) := by
  obtain ⟨hn, ht⟩ := Connections.isBuilt_of_build htables
  exact toldByPairs_of_isBuilt (Network.known_ofEdits edits) hn ht rfl

/-- In the sample city places and rankings are told by the changes between two routes. -/
theorem toldByPairs_sampleCity : ∃ tables, Connections.build SampleCity.network.source
      SampleCity.network.interchanges = .ok tables ∧
    (Planner.mk tables SampleCity.network.service).ToldByPairs SampleCity.network := by
  have hsize : SampleCity.network.routes.size ≤ maxRoutes := by decide
  obtain ⟨tables, htables⟩ := Network.exists_connections (Network.known_ofEdits _) hsize
  exact ⟨tables, htables, toldByPairs_of_build _ htables⟩

end Planner
end TransitChanges
