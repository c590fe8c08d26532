import Mathlib.Data.List.Nodup
import TransitChanges.Planner
import TransitChanges.Proofs.Ways

/-!
# Queries and what they remember

A query may refuse, and it remembers what stations answered.  `Asking.Ensures` says that it does not
refuse, and what its answer is, from every memory of some kind; the memory it leaves is again of
that kind, so that such facts about the steps of a query make one about the query.  Where a step may
refuse, `Asking.Allows` says for what causes, and what its answer is if it does not.

What a tree of ways answers follows from what its stations may answer, be the answers those of a
test or unknown (`Ways.Answers`).  Answers are remembered by station, while a timetable is asked with
all that an interchange says.  Where the interchanges of one station have one answer
(`Service.Agrees`), a remembered answer is what the timetable would answer again
(`Memory.Faithful`).

* `Asking.Ensures.bind`, `Asking.Allows.bind`: one step after the other.
* `Ways.ensures_askOpen`: asking a tree answers as its chains do.
* `Service.operates_of_faithful`: out of a faithful memory an interchange answers as afresh.
* `Service.agrees_of_nodup`: interchanges of different stations have one answer each.
-/

namespace TransitChanges

open Bits

/-- An outcome is a refusal for one of some causes, or an answer of some kind. -/
def Fault.Allows {α : Type} (cause : Fault → Prop) (answer : α → Prop) : Except Fault α → Prop
  | .error fault => cause fault
  | .ok a => answer a

namespace Fault.Allows

variable {α β : Type} {cause cause' : Fault → Prop} {answer answer' : α → Prop}
  {x : Except Fault α}

theorem mono (h : Allows cause answer x) (hcause : ∀ fault, cause fault → cause' fault)
    (hanswer : ∀ a, answer a → answer' a) : Allows cause' answer' x := by
  cases x with
  | error fault => exact hcause fault h
  | ok a => exact hanswer a h

/-- An outcome that refuses for one of the causes is an answer otherwise. -/
theorem of_error (h : ∀ fault, x = .error fault → cause fault) :
    Allows cause (fun a => x = .ok a) x := by
  cases x with
  | error fault => exact h fault rfl
  | ok a => rfl

theorem bind {answer' : β → Prop} {f : α → Except Fault β} (h : Allows cause answer x)
    (h' : ∀ a, answer a → Allows cause answer' (f a)) : Allows cause answer' (x >>= f) := by
  cases x with
  | error fault => exact h
  | ok a => exact h' a h

end Fault.Allows

namespace Asking

variable {α β : Type} {known : Memory → Prop}

/-- From every known memory the step answers as told, and leaves a known memory. -/
def Ensures (known : Memory → Prop) (step : Asking α) (answer : α → Prop) : Prop :=
  ∀ m, known m → ∃ a m', step.run m = (.ok a, m') ∧ answer a ∧ known m'

namespace Ensures

theorem pure {answer : α → Prop} {a : α} (h : answer a) :
    Ensures known (Pure.pure a) answer := by
  intro m hm
  exact ⟨a, m, rfl, h, hm⟩

theorem bind {answer : α → Prop} {answer' : β → Prop} {step : Asking α} {next : α → Asking β}
    (h : Ensures known step answer) (h' : ∀ a, answer a → Ensures known (next a) answer') :
    Ensures known (step >>= next) answer' := by
  intro m hm
  obtain ⟨a, m', hrun, ha, hm'⟩ := h m hm
  obtain ⟨b, m'', hrun', hb, hm''⟩ := h' a ha m' hm'
  refine ⟨b, m'', ?_, hb, hm''⟩
  show ExceptT.bindCont next (step.run m).1 (step.run m).2 = _
  rw [hrun]
  exact hrun'

theorem ofExcept {answer : α → Prop} {x : Except Fault α} {a : α} (hx : x = .ok a)
    (h : answer a) : Ensures known (Asking.ofExcept x) answer := by
  rw [hx]
  exact pure h

theorem mono {answer answer' : α → Prop} {step : Asking α} (h : Ensures known step answer)
    (h' : ∀ a, answer a → answer' a) : Ensures known step answer' := by
  intro m hm
  obtain ⟨a, m', hrun, ha, hm'⟩ := h m hm
  exact ⟨a, m', hrun, h' a ha, hm'⟩

/-- A query that begins with a known memory has an answer. -/
theorem result {answer : α → Prop} {query : Asking α} (h : Ensures known query answer)
    (hempty : known .empty) : ∃ a, query.result = .ok a ∧ answer a := by
  obtain ⟨a, m', hrun, ha, -⟩ := h .empty hempty
  refine ⟨a, ?_, ha⟩
  rw [Asking.result, hrun]

end Ensures

/-- Whatever is remembered, the step refuses for no other than the given causes. -/
def RefusesOnly (step : Asking α) (cause : Fault → Prop) : Prop :=
  ∀ m fault m', step.run m = (.error fault, m') → cause fault

namespace RefusesOnly

variable {cause : Fault → Prop}

theorem pure (a : α) : RefusesOnly (Pure.pure a) cause := by
  intro m fault m' hrun
  cases hrun

theorem bind {step : Asking α} {next : α → Asking β} (h : RefusesOnly step cause)
    (h' : ∀ a, RefusesOnly (next a) cause) : RefusesOnly (step >>= next) cause := by
  intro m fault m' hrun
  have hbind : ExceptT.bindCont next (step.run m).1 (step.run m).2 = (.error fault, m') := hrun
  rcases hstep : step.run m with ⟨a | a, m''⟩
  · rw [hstep] at hbind
    cases hbind
    exact h m fault _ hstep
  · rw [hstep] at hbind
    exact h' a m'' fault m' hbind

theorem ofExcept {x : Except Fault α} (h : ∀ fault, x = .error fault → cause fault) :
    RefusesOnly (Asking.ofExcept x) cause := by
  cases x with
  | ok a => exact pure a
  | error fault =>
    intro m fault' m' hrun
    cases hrun
    exact h fault rfl

/-- A step that always answers refuses for no cause. -/
theorem of_ensures {step : Asking α} {answer : α → Prop}
    (h : Ensures (fun _ => True) step answer) : RefusesOnly step cause := by
  intro m fault m' hrun
  obtain ⟨a, m'', hrun', -⟩ := h m trivial
  rw [hrun] at hrun'
  cases hrun'

theorem result {query : Asking α} {fault : Fault} (h : RefusesOnly query cause)
    (hfault : query.result = .error fault) : cause fault := by
  refine h .empty fault (query.run .empty).2 ?_
  rw [← hfault]
  rfl

end RefusesOnly

/-- Whatever is remembered, the step refuses for one of the causes or answers as told. -/
def Allows (cause : Fault → Prop) (answer : α → Prop) (step : Asking α) : Prop :=
  ∀ m, Fault.Allows cause answer (step.run m).1

namespace Allows

variable {cause : Fault → Prop} {answer : α → Prop} {step : Asking α}

theorem pure {a : α} (h : answer a) : Allows cause answer (Pure.pure a) := fun _ => h

theorem bind {answer' : β → Prop} {next : α → Asking β} (h : Allows cause answer step)
    (h' : ∀ a, answer a → Allows cause answer' (next a)) :
    Allows cause answer' (step >>= next) := by
  intro m
  have hm := h m
  show Fault.Allows cause answer' (ExceptT.bindCont next (step.run m).1 (step.run m).2).1
  cases hstep : (step.run m).1 with
  | error fault =>
    rw [hstep] at hm
    exact hm
  | ok a =>
    rw [hstep] at hm
    exact h' a hm (step.run m).2

theorem mono {cause' : Fault → Prop} {answer' : α → Prop} (h : Allows cause answer step)
    (hcause : ∀ fault, cause fault → cause' fault) (hanswer : ∀ a, answer a → answer' a) :
    Allows cause' answer' step :=
  fun m => (h m).mono hcause hanswer

theorem ofExcept {x : Except Fault α} (h : Fault.Allows cause answer x) :
    Allows cause answer (Asking.ofExcept x) := by
  intro m
  cases x with
  | error fault => exact h
  | ok a => exact h

/-- A step that always answers refuses for no cause. -/
theorem of_ensures (h : Ensures (fun _ => True) step answer) : Allows cause answer step := by
  intro m
  obtain ⟨a, m', hrun, ha, -⟩ := h m trivial
  rw [hrun]
  exact ha

theorem result (h : Allows cause answer step) : Fault.Allows cause answer step.result :=
  h .empty

end Allows
end Asking

/-! ## Asking stations -/

namespace Ways

variable {Station : Type} {known : Memory → Prop} {answers : Station → Bool → Prop}
  {ask : Station → Asking Bool}

/-- What the answer about some chains may be, given what the answers about stations may be. -/
def Answers (answers : Station → Bool → Prop) (chains : List (List Station)) : Bool → Prop
  | true => ∃ c ∈ chains, ∀ station ∈ c, answers station true
  | false => ∀ c ∈ chains, ∃ station ∈ c, answers station false

/-- If stations answer by a test, chains do. -/
theorem answers_iff {operates : Station → Bool} {w : Ways Station} {b : Bool} :
    Answers (fun station b => b = operates station) w.chains b ↔ b = w.isOpen operates := by
  have hopen := isOpen_iff_exists_chain operates w
  cases b with
  | true =>
    rw [eq_comm, hopen, Answers]
    simp only [eq_comm (a := true)]
  | false =>
    rw [eq_comm, ← Bool.not_eq_true, hopen, Answers]
    simp [eq_comm (a := false)]

theorem ensures_askStations {stations : List Station}
    (hask : ∀ station ∈ stations, Asking.Ensures known (ask station) (answers station)) :
    Asking.Ensures known (askStations ask stations)
      (Answers answers (stations.map fun station => [station])) := by
  induction stations with
  | nil =>
    refine .pure fun c hc => ?_
    cases hc
  | cons station stations ih =>
    obtain ⟨hstation, hstations⟩ := List.forall_mem_cons.mp hask
    refine hstation.bind fun b hb => ?_
    cases b with
    | true =>
      refine .pure ⟨[station], List.mem_cons_self, fun s hs => ?_⟩
      rw [List.mem_singleton.mp hs]
      exact hb
    | false =>
      refine (ih hstations).mono fun b' hb' => ?_
      cases b' with
      | true =>
        obtain ⟨c, hc, hall⟩ := hb'
        exact ⟨c, List.mem_cons_of_mem _ hc, hall⟩
      | false =>
        intro c hc
        rcases List.mem_cons.mp hc with rfl | hc
        · exact ⟨station, List.mem_singleton_self station, hb⟩
        · exact hb' c hc

mutual

/-- **Asking a tree answers as its chains do**, if its own stations answer as told. -/
theorem ensures_askOpen {w : Ways Station}
    (hask : ∀ station ∈ w.stations, Asking.Ensures known (ask station) (answers station)) :
    Asking.Ensures known (w.askOpen ask) (Answers answers w.chains) := by
  cases w with
  | noWay =>
    rw [askOpen, chains]
    exact .pure fun c hc => absurd hc List.not_mem_nil
  | single station =>
    rw [stations, List.forall_mem_singleton] at hask
    rw [askOpen, chains]
    refine hask.mono fun b hb => ?_
    cases b <;> simpa [Answers] using hb
  | choice stations =>
    rw [Ways.stations] at hask
    rw [askOpen, chains]
    exact ensures_askStations hask
  | both v w =>
    rw [stations, List.forall_mem_append] at hask
    rw [askOpen]
    refine (ensures_askOpen hask.1).bind fun b hb => ?_
    cases b with
    | true =>
      refine (ensures_askOpen hask.2).mono fun b' hb' => ?_
      cases b' with
      | true =>
        obtain ⟨c, hc, hall⟩ := hb
        obtain ⟨d, hd, hall'⟩ := hb'
        refine ⟨c ++ d, mem_chains_both.mpr ⟨c, hc, d, hd, rfl⟩, fun station hs => ?_⟩
        rcases List.mem_append.mp hs with hs | hs
        · exact hall station hs
        · exact hall' station hs
      | false =>
        intro c hc
        obtain ⟨d, -, e, he, rfl⟩ := mem_chains_both.mp hc
        obtain ⟨station, hs, hclosed⟩ := hb' e he
        exact ⟨station, List.mem_append_right _ hs, hclosed⟩
    | false =>
      refine .pure fun c hc => ?_
      obtain ⟨d, hd, e, -, rfl⟩ := mem_chains_both.mp hc
      obtain ⟨station, hs, hclosed⟩ := hb d hd
      exact ⟨station, List.mem_append_left _ hs, hclosed⟩
  | any ways =>
    rw [stations] at hask
    rw [askOpen, chains]
    exact ensures_askAnyOpen hask

theorem ensures_askAnyOpen {ways : List (Ways Station)}
    (hask : ∀ station ∈ stationsOfAny ways,
      Asking.Ensures known (ask station) (answers station)) :
    Asking.Ensures known (askAnyOpen ask ways) (Answers answers (chainsOfAny ways)) := by
  cases ways with
  | nil =>
    rw [askAnyOpen, chainsOfAny]
    exact .pure fun c hc => absurd hc List.not_mem_nil
  | cons w ways =>
    rw [stationsOfAny, List.forall_mem_append] at hask
    rw [askAnyOpen, chainsOfAny]
    refine (ensures_askOpen hask.1).bind fun b hb => ?_
    cases b with
    | true =>
      obtain ⟨c, hc, hall⟩ := hb
      exact .pure ⟨c, List.mem_append_left _ hc, hall⟩
    | false =>
      refine (ensures_askAnyOpen hask.2).mono fun b' hb' => ?_
      cases b' with
      | true =>
        obtain ⟨c, hc, hall⟩ := hb'
        exact ⟨c, List.mem_append_right _ hc, hall⟩
      | false =>
        intro c hc
        rcases List.mem_append.mp hc with hc | hc
        · exact hb c hc
        · exact hb' c hc

end

end Ways

/-! ## Remembered answers -/

/-- What is remembered of a station is what it would answer. -/
def Memory.Faithful (answer : StationId → Bool) (m : Memory) : Prop :=
  ∀ station known, m.answers[station]? = some known → known = answer station

theorem Memory.faithful_empty (answer : StationId → Bool) : Memory.empty.Faithful answer := by
  intro station known h
  rw [Memory.empty, Std.TreeMap.getElem?_emptyc] at h
  cases h

namespace Service

variable (service : Service) (scope : Scope)

/-- A timetable never refuses to tell whether an interchange operates. -/
theorem ensures_operates_any (i : Interchange) : Asking.Ensures (fun _ => True)
    (ExceptT.lift (service.operates scope i)) fun _ => True := by
  intro m _
  exact ⟨_, _, rfl, trivial, trivial⟩

variable {service scope}

/-- Out of a faithful memory an interchange answers as it would afresh, and the memory stays
faithful. -/
theorem operates_of_faithful {answer : StationId → Bool} {i : Interchange}
    (h : service.isOperating scope i = answer i.station) {m : Memory} (hm : m.Faithful answer) :
    (service.operates scope i m).1 = service.isOperating scope i ∧
      (service.operates scope i m).2.Faithful answer := by
  cases hknown : m.answers[i.station]? with
  | some known =>
    rw [service.operates_of_known hknown, h]
    exact ⟨hm i.station known hknown, hm⟩
  | none =>
    refine ⟨(service.operates_of_unknown hknown).1, fun station known hstation => ?_⟩
    have hanswers : (service.operates scope i m).2.answers =
        m.answers.insert i.station (service.isOperating scope i) := by
      unfold operates
      rw [hknown]
      rfl
    rw [hanswers, Std.TreeMap.getElem?_insert] at hstation
    split at hstation
    · next heq =>
      rw [← Option.some.inj hstation, ← Name.compare_eq_iff.mp heq]
      exact h
    · exact hm station known hstation

theorem ensures_operates {answer : StationId → Bool} {i : Interchange}
    (h : service.isOperating scope i = answer i.station) :
    Asking.Ensures (Memory.Faithful answer) (ExceptT.lift (service.operates scope i))
      fun b => b = service.isOperating scope i := by
  intro m hm
  obtain ⟨hanswer, hfaithful⟩ := operates_of_faithful h hm
  exact ⟨_, _, rfl, hanswer, hfaithful⟩

/-! ## Interchanges of one station -/

variable {interchanges : List Interchange}

/-- A station answers as the interchanges that have it, if these agree. -/
theorem Agrees.exists_answersAt (h : service.Agrees scope interchanges) :
    ∃ answer, service.AnswersAt scope interchanges answer := by
  refine ⟨fun station => interchanges.any fun i =>
    decide (i.station = station) && service.isOperating scope i, fun i hi => ?_⟩
  rw [Bool.eq_iff_iff, List.any_eq_true]
  simp only [Bool.and_eq_true, decide_eq_true_eq]
  constructor
  · intro hoperates
    exact ⟨i, hi, rfl, hoperates⟩
  · rintro ⟨j, hj, hstation, hoperates⟩
    rw [h i hi j hj hstation.symm]
    exact hoperates

/-- Any timetable agrees on interchanges of different stations. -/
theorem agrees_of_nodup (service : Service) (scope : Scope)
    (h : (interchanges.map Interchange.station).Nodup) : service.Agrees scope interchanges := by
  intro i hi j hj hstation
  rw [List.inj_on_of_nodup_map h hi hj hstation]

end Service

end TransitChanges
