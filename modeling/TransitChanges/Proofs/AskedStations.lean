import TransitChanges.Proofs.Ways

/-!
# Which stations are asked

A tree of ways is asked from left to right, and no station once the answer is known.  What is asked
is therefore part of what the tree holds (`Ways.stations`), in the same order, and it depends on the
answers that were had on the way.  `Ways.asks` says what is asked, with the answers given by a test,
and `run_askOpen` that the run which notes its questions asks just that.

Since a station that was not asked had no say, any other test that answers the same at the stations
that were asked finds the same, and asks the same (`asks_congr`).

* `run_askOpen`: the answer of a run, and its questions.
* `asks_sublist`: stations are asked in the order in which the tree holds them.
* `isOpen_iff_chain_decided_by_asked`: what a tree answers, and what it asks to do so.
-/

namespace TransitChanges.Ways

variable {Station : Type}

/-! ## Questions -/

variable (operates : Station → Bool)

/-- The stations of a choice that are asked: those up to the first that operates. -/
def asksStations : List Station → List Station
  | [] => []
  | station :: stations => station :: if operates station then [] else asksStations stations

mutual

/-- The stations of a tree that are asked. -/
def asks : Ways Station → List Station
  | noWay => []
  | single station => [station]
  | choice stations => asksStations operates stations
  | both first second => asks first ++ if first.isOpen operates then asks second else []
  | any ways => asksOfAny ways

/-- The stations of alternatives that are asked. -/
def asksOfAny : List (Ways Station) → List Station
  | [] => []
  | w :: ways => asks w ++ if w.isOpen operates then [] else asksOfAny ways

end

/-- To ask a station and to note that. -/
def noting (station : Station) : StateM (List Station) Bool :=
  fun asked => (operates station, asked ++ [station])

/-! ## What a run asks -/

theorem run_askStations (stations asked : List Station) :
    (askStations (noting operates) stations).run asked =
      (stations.any operates, asked ++ asksStations operates stations) := by
  induction stations generalizing asked with
  | nil =>
    rw [asksStations, List.append_nil]
    rfl
  | cons station stations ih =>
    rw [askStations, StateT.run_bind, asksStations, List.any_cons]
    change (if operates station then _ else _ : StateM (List Station) Bool).run
      (asked ++ [station]) = _
    cases operates station with
    | true => rfl
    | false =>
      change (askStations (noting operates) stations).run (asked ++ [station]) = _
      rw [ih, List.append_assoc]
      rfl

mutual

/-- **A run answers what the tree answers**, and notes what is asked. -/
theorem run_askOpen (w : Ways Station) (asked : List Station) :
    (w.askOpen (noting operates)).run asked =
      (w.isOpen operates, asked ++ w.asks operates) := by
  cases w with
  | noWay =>
    rw [asks, List.append_nil]
    rfl
  | single station => rfl
  | choice stations => exact run_askStations operates stations asked
  | both v w =>
    rw [askOpen, StateT.run_bind, run_askOpen v, isOpen_both, asks]
    change (if v.isOpen operates then _ else _ : StateM (List Station) Bool).run
      (asked ++ v.asks operates) = _
    cases v.isOpen operates with
    | true =>
      change (w.askOpen (noting operates)).run (asked ++ v.asks operates) = _
      rw [run_askOpen w, List.append_assoc]
      rfl
    | false =>
      simp only [Bool.false_eq_true, if_false, Bool.false_and, List.append_nil]
      rfl
  | any ways =>
    rw [askOpen, isOpen, asks]
    exact run_askAnyOpen ways asked

theorem run_askAnyOpen (ways : List (Ways Station)) (asked : List Station) :
    (askAnyOpen (noting operates) ways).run asked =
      (isAnyOpen operates ways, asked ++ asksOfAny operates ways) := by
  cases ways with
  | nil =>
    rw [asksOfAny, List.append_nil]
    rfl
  | cons w ways =>
    rw [askAnyOpen, StateT.run_bind, run_askOpen w, isAnyOpen, asksOfAny]
    change (if w.isOpen operates then _ else _ : StateM (List Station) Bool).run
      (asked ++ w.asks operates) = _
    cases w.isOpen operates with
    | true =>
      simp only [if_true, Bool.true_or, List.append_nil]
      rfl
    | false =>
      change (askAnyOpen (noting operates) ways).run (asked ++ w.asks operates) = _
      rw [run_askAnyOpen ways, List.append_assoc]
      rfl

end

theorem asked_eq (w : Ways Station) : w.asked operates = (w.isOpen operates, w.asks operates) :=
  run_askOpen operates w []

/-! ## Stations that are asked stand in the tree -/

theorem asksStations_begins (stations : List Station) :
    asksStations operates stations <+: stations := by
  induction stations with
  | nil => exact List.prefix_rfl
  | cons station stations ih =>
    rw [asksStations, List.prefix_cons_inj]
    split
    · exact List.nil_prefix
    · exact ih

mutual

/-- **Stations are asked in the order in which the tree holds them.** -/
theorem asks_sublist (w : Ways Station) : (w.asks operates).Sublist w.stations := by
  cases w with
  | noWay => exact List.nil_sublist _
  | single station => exact List.Sublist.refl [station]
  | choice stations =>
    rw [asks, Ways.stations]
    exact (asksStations_begins operates stations).sublist
  | both v w =>
    rw [asks, stations]
    refine (asks_sublist v).append ?_
    split
    · exact asks_sublist w
    · exact List.nil_sublist _
  | any ways =>
    rw [asks, stations]
    exact asksOfAny_sublist ways

theorem asksOfAny_sublist (ways : List (Ways Station)) :
    (asksOfAny operates ways).Sublist (stationsOfAny ways) := by
  cases ways with
  | nil =>
    rw [asksOfAny]
    exact List.nil_sublist _
  | cons w ways =>
    rw [asksOfAny, stationsOfAny]
    refine (asks_sublist w).append ?_
    split
    · exact List.nil_sublist _
    · exact asksOfAny_sublist ways

end

/-! ## Stations that are asked decide -/

section Agree

variable {operates} {other : Station → Bool}

theorem asksStations_congr {stations : List Station}
    (h : ∀ station ∈ asksStations operates stations, other station = operates station) :
    stations.any other = stations.any operates ∧
      asksStations other stations = asksStations operates stations := by
  induction stations with
  | nil => exact ⟨rfl, rfl⟩
  | cons station stations ih =>
    rw [asksStations, List.forall_mem_cons] at h
    rw [List.any_cons, List.any_cons, asksStations, asksStations, h.1]
    cases hstation : operates station with
    | true => exact ⟨rfl, rfl⟩
    | false =>
      rw [hstation, if_neg Bool.false_ne_true] at h
      obtain ⟨hany, hasks⟩ := ih h.2
      rw [hany, hasks]
      exact ⟨rfl, rfl⟩

mutual

/-- **What is asked and what is found depend on the stations that are asked alone.** -/
theorem asks_congr {w : Ways Station}
    (h : ∀ station ∈ w.asks operates, other station = operates station) :
    w.isOpen other = w.isOpen operates ∧ w.asks other = w.asks operates := by
  cases w with
  | noWay => exact ⟨rfl, rfl⟩
  | single station =>
    rw [asks, List.forall_mem_singleton] at h
    exact ⟨h, rfl⟩
  | choice stations => exact asksStations_congr h
  | both v w =>
    rw [asks, List.forall_mem_append] at h
    obtain ⟨hopen, hasks⟩ := asks_congr h.1
    rw [isOpen_both, isOpen_both, asks, asks, hopen, hasks]
    cases hv : v.isOpen operates with
    | true =>
      rw [hv, if_pos rfl] at h
      obtain ⟨hopen, hasks⟩ := asks_congr h.2
      rw [hopen, hasks]
      exact ⟨rfl, rfl⟩
    | false => exact ⟨rfl, rfl⟩
  | any ways => exact asksOfAny_congr h

theorem asksOfAny_congr {ways : List (Ways Station)}
    (h : ∀ station ∈ asksOfAny operates ways, other station = operates station) :
    isAnyOpen other ways = isAnyOpen operates ways ∧
      asksOfAny other ways = asksOfAny operates ways := by
  cases ways with
  | nil => exact ⟨rfl, rfl⟩
  | cons w ways =>
    rw [asksOfAny, List.forall_mem_append] at h
    obtain ⟨hopen, hasks⟩ := asks_congr h.1
    rw [isAnyOpen, isAnyOpen, asksOfAny, asksOfAny, hopen, hasks]
    cases hw : w.isOpen operates with
    | true => exact ⟨rfl, rfl⟩
    | false =>
      rw [hw, if_neg Bool.false_ne_true] at h
      obtain ⟨hopen, hasks⟩ := asksOfAny_congr h.2
      rw [hopen, hasks]
      exact ⟨rfl, rfl⟩

end

end Agree

/-! ## What a tree answers -/

theorem isOpen_ofWays (ways : List (Ways Station)) :
    (ofWays ways).isOpen operates = ways.any (isOpen operates) := by
  rw [Bool.eq_iff_iff, isOpen_iff_exists_chain, List.any_eq_true]
  simp only [isOpen_iff_exists_chain, mem_chains_ofWays]
  constructor
  · rintro ⟨c, ⟨w, hw, hc⟩, hopen⟩
    exact ⟨w, hw, c, hc, hopen⟩
  · rintro ⟨w, hw, c, hc, hopen⟩
    exact ⟨c, ⟨w, hw, hc⟩, hopen⟩

/-- **A tree is open along one of its chains, and the stations that are asked decide it.**  With
more stations operating, a tree that was open stays open.  Trees that are put together answer for
their parts.  Asked from left to right, a tree answers what it says, asks none but its own stations,
and would do all the same for any test that agrees on those that were asked. -/
theorem isOpen_iff_chain_decided_by_asked :
    (∀ w : Ways Station, w.isOpen operates = true ↔
      ∃ c ∈ w.chains, ∀ station ∈ c, operates station = true) ∧
    (∀ more : Station → Bool, (∀ station, operates station = true → more station = true) →
      ∀ w : Ways Station, w.isOpen operates = true → w.isOpen more = true) ∧
    (∀ stations : List Station, (ofStations stations).isOpen operates = stations.any operates) ∧
    (∀ v w : Ways Station,
      (both v w).isOpen operates = (v.isOpen operates && w.isOpen operates)) ∧
    (∀ ways : List (Ways Station),
      (ofWays ways).isOpen operates = ways.any (isOpen operates)) ∧
    ∀ w : Ways Station, (w.asked operates).1 = w.isOpen operates ∧
      (w.asked operates).2.Sublist w.stations ∧
      ∀ other : Station → Bool,
        (∀ station ∈ (w.asked operates).2, other station = operates station) →
        w.asked other = w.asked operates := by
  refine ⟨isOpen_iff_exists_chain operates, fun more hmore w hopen => ?_,
    isOpen_ofStations operates, isOpen_both operates, isOpen_ofWays operates, fun w => ?_⟩
  · obtain ⟨c, hc, hall⟩ := (isOpen_iff_exists_chain operates w).mp hopen
    exact (isOpen_iff_exists_chain more w).mpr ⟨c, hc, fun station hs => hmore _ (hall _ hs)⟩
  · simp only [asked_eq]
    refine ⟨trivial, asks_sublist operates w, fun other hother => ?_⟩
    obtain ⟨hopen, hasks⟩ := asks_congr hother
    rw [hopen, hasks]

/-- Alternatives with dead parts and repeats, over four stations. -/
def branched : Ways String :=
  any [both (choice ["A", "B"]) (single "C"), noWay, any [], choice ["B", "D", "E"]]

/-- Every station but one operates. -/
def allBut (closed station : String) : Bool :=
  station != closed

/-- Without C the last alternative is taken at once.  E is not asked, so it may be closed too. -/
theorem asked_branched :
    branched.isOpen (allBut "C") = true ∧
    branched.asked (allBut "C") = (true, ["A", "C", "B"]) ∧
    branched.isOpen (fun _ => true) = true ∧
    branched.asked (fun station => station != "C" && station != "E") =
      (true, ["A", "C", "B"]) := by
  obtain ⟨-, hmore, -, -, -, hasked⟩ := isOpen_iff_chain_decided_by_asked (allBut "C")
  have hopen : branched.isOpen (allBut "C") = true := by decide
  have hrun : branched.asked (allBut "C") = (true, ["A", "C", "B"]) := by decide
  obtain ⟨-, -, hsame⟩ := hasked branched
  refine ⟨hopen, hrun, hmore _ (fun _ _ => rfl) branched hopen, ?_⟩
  rw [hsame _ (by rw [hrun]; decide), hrun]

end TransitChanges.Ways
