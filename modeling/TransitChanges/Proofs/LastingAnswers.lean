import TransitChanges.Proofs.Asking
import TransitChanges.Ranking

/-!
# Answers that last

While a query lasts no answer of a station is forgotten, and none is asked for again.  So whatever a
step of a query has come to, it comes to again out of any later memory, and then it asks nothing
(`Asking.Lasts`).

That holds of every timetable.  One that answers differently for interchanges of the same station
decides by what is asked first which answer is remembered; but from then on it is always the same.

* `Asking.Lasts.bind`: one step after the other.
* `Service.lasts_operates`: an interchange goes on answering as its station did.
* `Ranking.lasts_fewestChanges`: a ranking goes on answering about a route as it did.
-/

namespace TransitChanges

/-- Every answer that is remembered is remembered later. -/
def Memory.Extends (later m : Memory) : Prop :=
  ∀ (station : StationId) (answer : Bool),
    m.answers[station]? = some answer → later.answers[station]? = some answer

namespace Memory.Extends

theorem refl (m : Memory) : m.Extends m := fun _ _ h => h

theorem trans {m m' m'' : Memory} (h' : m''.Extends m') (h : m'.Extends m) : m''.Extends m :=
  fun station answer hknown => h' station answer (h station answer hknown)

end Memory.Extends

namespace Asking

variable {α β : Type} {step : Asking α} {next : α → Asking β}

theorem run_bind (step : Asking α) (next : α → Asking β) (m : Memory) :
    (step >>= next).run m = ExceptT.bindCont next (step.run m).1 (step.run m).2 := rfl

theorem run_bind_eq_ok {m m'' : Memory} {b : β} (h : (step >>= next).run m = (.ok b, m'')) :
    ∃ a m', step.run m = (.ok a, m') ∧ (next a).run m' = (.ok b, m'') := by
  rw [run_bind] at h
  rcases hstep : step.run m with ⟨fault | a, m'⟩
  · rw [hstep] at h
    cases h
  · rw [hstep] at h
    exact ⟨a, m', rfl, h⟩

/-- A step forgets nothing, and what it comes to it comes to again, as long as nothing is
forgotten. -/
structure Lasts (step : Asking α) : Prop where
  remembers (m : Memory) : (step.run m).2.Extends m
  again {m later : Memory} (h : later.Extends (step.run m).2) :
    step.run later = ((step.run m).1, later)

namespace Lasts

theorem pure (a : α) : Lasts (Pure.pure a) := ⟨.refl, fun _ => rfl⟩

theorem ofExcept (x : Except Fault α) : Lasts (Asking.ofExcept x) := by
  cases x with
  | ok a => exact pure a
  | error fault => exact ⟨.refl, fun _ => rfl⟩

theorem bind (h : Lasts step) (h' : ∀ a, Lasts (next a)) : Lasts (step >>= next) where
  remembers m := by
    have hm := h.remembers m
    rw [run_bind]
    cases hstep : (step.run m).1 with
    | error fault => exact hm
    | ok a => exact ((h' a).remembers _).trans hm
  again {m later} hlater := by
    rw [run_bind] at hlater ⊢
    cases hstep : (step.run m).1 with
    | error fault =>
      rw [hstep] at hlater
      rw [run_bind, h.again hlater, hstep]
      rfl
    | ok a =>
      rw [hstep] at hlater
      rw [run_bind, h.again (hlater.trans ((h' a).remembers _)), hstep]
      exact (h' a).again hlater

end Lasts
end Asking

/-- An interchange goes on answering as its station did. -/
theorem Service.lasts_operates (service : Service) (scope : Scope) (i : Interchange) :
    Asking.Lasts (ExceptT.lift (service.operates scope i)) := by
  have hrun (m : Memory) : (ExceptT.lift (service.operates scope i) : Asking Bool).run m =
      (.ok (service.operates scope i m).1, (service.operates scope i m).2) := rfl
  refine ⟨fun m station answer hstation => ?_, fun {m later} hlater => ?_⟩
  · rw [hrun]
    cases hknown : m.answers[i.station]? with
    | some known =>
      rw [service.operates_of_known hknown]
      exact hstation
    | none =>
      have hne : ¬ compare i.station station = .eq := fun heq => by
        rw [Name.compare_eq_iff.mp heq, hstation] at hknown
        cases hknown
      have hanswers : (service.operates scope i m).2.answers =
          m.answers.insert i.station (service.isOperating scope i) := by
        unfold operates
        rw [hknown]
        rfl
      dsimp only
      rw [hanswers, Std.TreeMap.getElem?_insert, if_neg hne]
      exact hstation
  · rw [hrun] at hlater ⊢
    rw [hrun]
    cases hknown : m.answers[i.station]? with
    | some known =>
      rw [service.operates_of_known hknown] at hlater ⊢
      rw [service.operates_of_known (hlater _ _ hknown)]
    | none =>
      obtain ⟨hanswer, hremembered⟩ := service.operates_of_unknown hknown
      rw [hanswer, service.operates_of_known (hlater _ _ hremembered)]

/-! ## Trees of ways -/

namespace Ways

variable {Station : Type} {ask : Station → Asking Bool}

theorem lasts_askStations (hask : ∀ station, Asking.Lasts (ask station))
    (stations : List Station) : Asking.Lasts (askStations ask stations) := by
  induction stations with
  | nil => exact .pure false
  | cons station stations ih =>
    refine (hask station).bind fun b => ?_
    cases b with
    | true => exact .pure true
    | false => exact ih

mutual

theorem lasts_askOpen (hask : ∀ station, Asking.Lasts (ask station)) (w : Ways Station) :
    Asking.Lasts (w.askOpen ask) := by
  cases w with
  | noWay =>
    rw [askOpen]
    exact .pure false
  | single station =>
    rw [askOpen]
    exact hask station
  | choice stations =>
    rw [askOpen]
    exact lasts_askStations hask stations
  | both v w =>
    rw [askOpen]
    refine (lasts_askOpen hask v).bind fun b => ?_
    cases b with
    | true => exact lasts_askOpen hask w
    | false => exact .pure false
  | any ways =>
    rw [askOpen]
    exact lasts_askAnyOpen hask ways

theorem lasts_askAnyOpen (hask : ∀ station, Asking.Lasts (ask station))
    (ways : List (Ways Station)) : Asking.Lasts (askAnyOpen ask ways) := by
  cases ways with
  | nil =>
    rw [askAnyOpen]
    exact .pure false
  | cons w ways =>
    rw [askAnyOpen]
    refine (lasts_askOpen hask w).bind fun b => ?_
    cases b with
    | true => exact .pure true
    | false => exact lasts_askAnyOpen hask ways

end

end Ways

/-! ## Queries -/

theorem Enquiry.lasts_changesFor (e : Enquiry) (pair : RoutePair) :
    Asking.Lasts (e.changesFor pair) := by
  unfold changesFor
  split
  · exact .pure _
  · refine (Asking.Lasts.ofExcept _).bind fun ways => ?_
    refine (Ways.lasts_askOpen (e.planner.service.lasts_operates e.scope) ways).bind fun b => ?_
    cases b with
    | true => exact .pure _
    | false => exact .pure _

theorem Enquiry.lasts_fewestTo (e : Enquiry) (start : Nat) (best : Changes)
    (destinations : List Nat) : Asking.Lasts (e.fewestTo start best destinations) := by
  induction destinations generalizing best with
  | nil => exact .pure best
  | cons j destinations ih =>
    exact (e.lasts_changesFor ⟨start, j⟩).bind fun c => ih (best.fewer c)

namespace Ranking

variable (r : Ranking)

/-- **A ranking goes on answering about a route as it did.** -/
theorem lasts_fewestChanges (id : RouteId) : Asking.Lasts (r.fewestChanges id) := by
  refine (Asking.Lasts.ofExcept _).bind fun start => ?_
  split
  · exact .pure _
  · exact r.enquiry.lasts_fewestTo start _ _

theorem lasts_withChanges {α : Type} (route : α → RouteId) (items : List α) :
    Asking.Lasts (r.withChanges route items) := by
  induction items with
  | nil => exact .pure []
  | cons item items ih =>
    exact (r.lasts_fewestChanges (route item)).bind fun c => ih.bind fun rest => .pure _

/-- What was answered about each of some items is what is answered after all of them. -/
theorem answers_of_withChanges {r : Ranking} {α : Type} {route : α → RouteId} {items : List α}
    {m m' : Memory} {ranked : List (Changes × α)}
    (h : (r.withChanges route items).run m = (.ok ranked, m')) :
    List.Forall₂ (fun item entry =>
      (r.fewestChanges (route item)).run m' = (.ok entry.1, m') ∧ item = entry.2) items ranked := by
  induction items generalizing m ranked with
  | nil =>
    cases h
    exact .nil
  | cons item items ih =>
    obtain ⟨changes, m₁, hitem, h⟩ := Asking.run_bind_eq_ok h
    obtain ⟨rest, m₂, hrest, h⟩ := Asking.run_bind_eq_ok h
    cases h
    refine .cons ⟨?_, rfl⟩ (ih hrest)
    have hlater := (r.lasts_withChanges route items).remembers m₁
    rw [hrest] at hlater
    have hagain := (r.lasts_fewestChanges (route item)).again (by rw [hitem]; exact hlater)
    rw [hitem] at hagain
    exact hagain

end Ranking
end TransitChanges
