import Mathlib.Data.Finset.Card
import Mathlib.Data.List.Nodup
import TransitChanges.Proofs.Asking
import TransitChanges.Proofs.NetworkRoutes
import TransitChanges.SampleCity

/-!
# Stations are asked about once

While a query lasts, the answer of every station is remembered.  So of any sequence of interchanges
each station is asked once whether it is closed, when it occurs for the first time, and once whether
it is available, unless it is closed; and every answer is the one that a fresh question would have
had, as long as the timetable answers for stations alone.  How often it is asked does not depend on
the order of the sequence.

The timetable itself does not tell how often it is asked.  `Asker.operates` is the one program that
asks, in whatever way questions are put, and to note every question that is put (`Service.noted`) is
one such way.  The memory of a query holds no questions but counts them, and the counts are those of
the questions that are noted.

* `noted_operateAll`: which questions are put, and in what order.
* `operateAll_eq`: what a query remembers is what the noting run does.
-/

namespace TransitChanges

/-- A list without its repeats has none. -/
theorem nodup_eraseDups {α : Type} [BEq α] [LawfulBEq α] (xs : List α) : xs.eraseDups.Nodup := by
  match xs with
  | [] => simp
  | x :: xs =>
    rw [List.eraseDups_cons, List.nodup_cons]
    exact ⟨by simp, nodup_eraseDups _⟩
termination_by xs.length
decreasing_by exact Nat.lt_succ_of_le (List.length_filter_le _ _)

/-! ## Putting questions -/

/-- A question about a station. -/
inductive Question where
  | closed (station : StationId)
  | available (station : StationId)
  deriving DecidableEq

/-- Whether a question is whether a station is closed. -/
def Question.isClosed : Question → Bool
  | closed _ => true
  | available _ => false

@[simp] theorem Question.isClosed_closed (station : StationId) :
    (closed station).isClosed = true := rfl

@[simp] theorem Question.isClosed_available (station : StationId) :
    (available station).isClosed = false := rfl

/-- A way to ask whether a station is closed, and whether it is available. -/
structure Asker (m : Type → Type) where
  isClosed : StationId → m Bool
  isAvailable : Interchange → m Bool

namespace Asker

variable {m : Type → Type} [Monad m] (ask : Asker m)

/-- Whether an interchange operates, and what is known then, from what is known before. -/
def operates (interchange : Interchange) (answers : Std.TreeMap StationId Bool) :
    m (Bool × Std.TreeMap StationId Bool) :=
  match answers[interchange.station]? with
  | some answer => return (answer, answers)
  | none => do
    let closed ← ask.isClosed interchange.station
    let answer ← if closed then pure false else ask.isAvailable interchange
    return (answer, answers.insert interchange.station answer)

/-- Whether each of some interchanges operates, asked one after the other. -/
def operateAll : List Interchange → Std.TreeMap StationId Bool →
    m (List Bool × Std.TreeMap StationId Bool)
  | [], answers => return ([], answers)
  | interchange :: interchanges, answers => do
    let (answer, answers) ← ask.operates interchange answers
    let (rest, answers) ← operateAll interchanges answers
    return (answer :: rest, answers)

end Asker

/-- What is remembered after some questions: the answers, and how many questions of either kind. -/
def Memory.after (m : Memory) (answers : Std.TreeMap StationId Bool) (asked : List Question) :
    Memory where
  answers
  closedAsked := m.closedAsked + asked.countP Question.isClosed
  availableAsked := m.availableAsked + asked.countP fun question => !question.isClosed

namespace Service

variable (service : Service) (scope : Scope)

/-- The timetable, with every question noted that it is asked. -/
def noted : Asker (StateM (List Question)) where
  isClosed station := do
    modify (· ++ [.closed station])
    return service.isClosed station scope.date
  isAvailable interchange := do
    modify (· ++ [.available interchange.station])
    return service.isAvailable interchange scope

/-- The questions about a station of which nothing is known. -/
def questions (station : StationId) : List Question :=
  if service.isClosed station scope.date then [.closed station]
  else [.closed station, .available station]

/-- The stations of a list of which nothing is known, in the order in which they occur first. -/
def unknown (answers : Std.TreeMap StationId Bool) (stations : List StationId) : List StationId :=
  (stations.filter fun station => !answers.contains station).eraseDups

variable {service scope}

/-! ## Stations of which nothing is known -/

theorem mem_unknown {answers : Std.TreeMap StationId Bool} {stations : List StationId}
    {station : StationId} : station ∈ unknown answers stations ↔
      station ∈ stations ∧ answers.contains station = false := by
  simp [unknown]

theorem unknown_singleton (answers : Std.TreeMap StationId Bool) (station : StationId) :
    unknown answers [station] = if answers.contains station then [] else [station] := by
  unfold unknown
  cases h : answers.contains station <;> simp [h, List.eraseDups_cons]

/-- Once a station is known, all others are as unknown as before. -/
theorem unknown_cons {answers answers' : Std.TreeMap StationId Bool} {station : StationId}
    (h : ∀ other, answers'.contains other = (station == other || answers.contains other))
    (stations : List StationId) : unknown answers (station :: stations) =
      unknown answers [station] ++ unknown answers' stations := by
  rw [unknown_singleton]
  cases hknown : answers.contains station with
  | true =>
    -- nothing new is known, so that the rest is as unknown as it was
    have hsame (other : StationId) : answers'.contains other = answers.contains other := by
      rw [h]
      by_cases hother : station = other
      · simp [← hother, hknown]
      · simp [hother]
    simp [unknown, hknown, hsame]
  | false =>
    -- to be unknown from here on is to be unknown before and another station
    have hfilter : (stations.filter fun other => !answers.contains other).filter
          (fun other => !other == station) =
        stations.filter fun other => !answers'.contains other := by
      rw [List.filter_filter]
      refine List.filter_congr fun other _ => ?_
      rw [h, Bool.not_or, Bool.beq_comm]
    rw [unknown, List.filter_cons_of_pos (by simp [hknown]), List.eraseDups_cons, hfilter]
    rfl

theorem nodup_unknown (answers : Std.TreeMap StationId Bool) (stations : List StationId) :
    (unknown answers stations).Nodup :=
  nodup_eraseDups _

/-! ## One interchange -/

/-- What one interchange leaves known. -/
theorem contains_operates (i : Interchange) (m : Memory) (station : StationId) :
    (service.operates scope i m).2.answers.contains station =
      (i.station == station || m.answers.contains station) := by
  unfold operates
  cases hknown : m.answers[i.station]? with
  | some answer =>
    by_cases hstation : i.station = station
    · simp [← hstation, Std.TreeMap.contains_eq_isSome_getElem?, hknown]
    · simp [hstation]
  | none =>
    rw [Std.TreeMap.contains_insert, Bool.eq_iff_iff]
    simp

/-- What is not a question leaves no note. -/
theorem pure_asked {α : Type} (a : α) (asked : List Question) :
    (pure a : StateM (List Question) α) asked = (a, asked) :=
  rfl

theorem noted_isClosed (station : StationId) (asked : List Question) :
    (service.noted scope).isClosed station asked =
      (service.isClosed station scope.date, asked ++ [.closed station]) :=
  rfl

theorem noted_isAvailable (i : Interchange) (asked : List Question) :
    (service.noted scope).isAvailable i asked =
      (service.isAvailable i scope, asked ++ [.available i.station]) :=
  rfl

/-- To note the questions about an interchange changes neither the answer nor what is known. -/
theorem noted_operates (i : Interchange) (m : Memory) (asked : List Question) :
    (service.noted scope).operates i m.answers asked =
      (((service.operates scope i m).1, (service.operates scope i m).2.answers),
        asked ++ (unknown m.answers [i.station]).flatMap (service.questions scope)) := by
  rw [unknown_singleton, Std.TreeMap.contains_eq_isSome_getElem?]
  unfold Asker.operates operates
  cases hknown : m.answers[i.station]? with
  | some answer => simp [pure_asked]
  | none =>
    cases hclosed : service.isClosed i.station scope.date <;>
      simp [questions, hclosed, bind, StateT.bind, noted_isClosed, noted_isAvailable, pure_asked]

/-- What is counted of an interchange is what is noted. -/
theorem operates_eq (i : Interchange) (m : Memory) :
    (service.operates scope i m).2 = m.after (service.operates scope i m).2.answers
      ((unknown m.answers [i.station]).flatMap (service.questions scope)) := by
  rw [unknown_singleton, Std.TreeMap.contains_eq_isSome_getElem?]
  unfold operates Memory.after
  cases hknown : m.answers[i.station]? with
  | some answer => simp
  | none =>
    cases hclosed : service.isClosed i.station scope.date <;>
      simp [questions, hclosed, List.countP_cons]

/-! ## One interchange after the other -/

theorem operateAll_nil (m : Memory) : service.operateAll scope [] m = ([], m) :=
  rfl

theorem operateAll_cons (i : Interchange) (stations : List Interchange) (m : Memory) :
    service.operateAll scope (i :: stations) m =
      ((service.operates scope i m).1 ::
          (service.operateAll scope stations (service.operates scope i m).2).1,
        (service.operateAll scope stations (service.operates scope i m).2).2) :=
  rfl

variable (service scope) in
/-- What is unknown of a sequence is unknown of its first interchange, or after it. -/
theorem unknown_cons_station (i : Interchange) (stations : List Interchange) (m : Memory) :
    unknown m.answers ((i :: stations).map Interchange.station) =
      unknown m.answers [i.station] ++ unknown (service.operates scope i m).2.answers
        (stations.map Interchange.station) :=
  unknown_cons (contains_operates i m) _

variable (service scope) in
/-- **The questions of a sequence are those about the stations that are unknown, in the order in
which they occur first.** -/
theorem noted_operateAll (stations : List Interchange) (m : Memory) (asked : List Question) :
    (service.noted scope).operateAll stations m.answers asked =
      (((service.operateAll scope stations m).1, (service.operateAll scope stations m).2.answers),
        asked ++ (unknown m.answers (stations.map Interchange.station)).flatMap
          (service.questions scope)) := by
  induction stations generalizing m asked with
  | nil => simp [Asker.operateAll, operateAll_nil, unknown, pure_asked]
  | cons i stations ih =>
    rw [unknown_cons_station service scope, List.flatMap_append, ← List.append_assoc,
      operateAll_cons]
    simp only [Asker.operateAll, bind, StateT.bind, noted_operates, ih, pure_asked]

/-- **A query counts the questions that it puts.** -/
theorem operateAll_eq (stations : List Interchange) (m : Memory) :
    (service.operateAll scope stations m).2 =
      m.after (service.operateAll scope stations m).2.answers
        ((unknown m.answers (stations.map Interchange.station)).flatMap
          (service.questions scope)) := by
  induction stations generalizing m with
  | nil => rfl
  | cons i stations ih =>
    rw [unknown_cons_station service scope, List.flatMap_append, operateAll_cons]
    dsimp only
    rw [ih, operates_eq i m]
    simp only [Memory.after, List.countP_append, Nat.add_assoc]

/-- Out of a faithful memory the answers are fresh ones. -/
theorem answers_operateAll {answer : StationId → Bool} (h : service.AnswersFor scope answer)
    (stations : List Interchange) {m : Memory} (hm : m.Faithful answer) :
    (service.operateAll scope stations m).1 = stations.map (service.isOperating scope) := by
  induction stations generalizing m with
  | nil => rfl
  | cons i stations ih =>
    obtain ⟨hanswer, hfaithful⟩ := operates_of_faithful (h i) hm
    rw [operateAll_cons, List.map_cons, hanswer, ih hfaithful]

/-! ## How often a station is asked about -/

variable (service scope) in
theorem count_closed (stations : List StationId) (station : StationId) :
    (stations.flatMap (service.questions scope)).count (.closed station) =
      stations.count station := by
  induction stations with
  | nil => rfl
  | cons other stations ih =>
    rw [List.flatMap_cons, List.count_append, ih, List.count_cons, Nat.add_comm]
    unfold questions
    split <;> simp [List.count_cons]

variable (service scope) in
theorem count_available (stations : List StationId) (station : StationId) :
    (stations.flatMap (service.questions scope)).count (.available station) =
      if service.isClosed station scope.date then 0 else stations.count station := by
  induction stations with
  | nil => simp
  | cons other stations ih =>
    rw [List.flatMap_cons, List.count_append, ih, List.count_cons]
    unfold questions
    by_cases hother : other = station
    · subst hother
      split <;> simp [Nat.add_comm]
    · split <;> simp [hother]

variable (service scope) in
/-- What is remembered of the questions about some stations. -/
theorem after_questions (m : Memory) (answers : Std.TreeMap StationId Bool)
    (stations : List StationId) :
    m.after answers (stations.flatMap (service.questions scope)) =
      ⟨answers, m.closedAsked + stations.length, m.availableAsked +
        stations.countP fun station => !service.isClosed station scope.date⟩ := by
  have hcounts : (stations.flatMap (service.questions scope)).countP Question.isClosed =
        stations.length ∧
      (stations.flatMap (service.questions scope)).countP (fun question => !question.isClosed) =
        stations.countP fun station => !service.isClosed station scope.date := by
    induction stations with
    | nil => exact ⟨rfl, rfl⟩
    | cons station stations ih =>
      simp only [List.flatMap_cons, List.countP_append, ih, List.length_cons, List.countP_cons]
      unfold questions
      cases service.isClosed station scope.date <;> simp [List.countP_cons, Nat.add_comm]
  rw [Memory.after, hcounts.1, hcounts.2]

/-- At first every station is unknown. -/
theorem mem_unknown_empty {stations : List StationId} {station : StationId} :
    station ∈ unknown ∅ stations ↔ station ∈ stations := by
  rw [mem_unknown, Std.TreeMap.contains_emptyc]
  exact and_iff_left rfl

theorem toFinset_unknown_empty (stations : List StationId) :
    (unknown ∅ stations).toFinset = stations.toFinset := by
  ext station
  rw [List.mem_toFinset, List.mem_toFinset, mem_unknown_empty]

variable (service scope) in
/-- A query that begins with an empty memory asks as often as there are stations. -/
theorem memory_operateAll (stations : List Interchange) :
    (service.operateAll scope stations .empty).2 =
      ⟨(service.operateAll scope stations .empty).2.answers,
        (stations.map Interchange.station).toFinset.card,
        ((stations.map Interchange.station).toFinset.filter
          fun station => service.isClosed station scope.date = false).card⟩ := by
  have hnodup := nodup_unknown ∅ (stations.map Interchange.station)
  rw [operateAll_eq, Memory.empty, after_questions, ← toFinset_unknown_empty,
    List.countP_eq_length_filter, Nat.zero_add, Nat.zero_add,
    ← List.toFinset_card_of_nodup hnodup, ← List.toFinset_card_of_nodup (hnodup.filter _),
    List.toFinset_filter]
  simp only [Bool.not_eq_true']

/-- **Every station is asked about once.**  Out of an empty memory every answer of a sequence is the
one that a fresh question has, each station is asked once whether it is closed, and once whether it
is available unless it is closed.  In another order the same interchanges have the same answers, and
there are as many questions. -/
theorem operateAll_asks_once {answer : StationId → Bool} (h : service.AnswersFor scope answer)
    (stations : List Interchange) : ∃ (m : Memory) (asked : List Question),
      service.operateAll scope stations .empty =
        (stations.map (service.isOperating scope), m) ∧
      (service.noted scope).operateAll stations ∅ [] =
        ((stations.map (service.isOperating scope), m.answers), asked) ∧
      m = Memory.empty.after m.answers asked ∧
      (∀ station, asked.count (.closed station) =
        if station ∈ stations.map Interchange.station then 1 else 0) ∧
      (∀ station, asked.count (.available station) =
        if station ∈ stations.map Interchange.station ∧
          service.isClosed station scope.date = false then 1 else 0) ∧
      m.closedAsked = (stations.map Interchange.station).toFinset.card ∧
      m.availableAsked = ((stations.map Interchange.station).toFinset.filter
        fun station => service.isClosed station scope.date = false).card ∧
      ∀ others, stations.Perm others → ∃ m',
        service.operateAll scope others .empty =
          (others.map (service.isOperating scope), m') ∧
        (stations.zip (stations.map (service.isOperating scope))).Perm
          (others.zip (others.map (service.isOperating scope))) ∧
        m'.closedAsked = m.closedAsked ∧ m'.availableAsked = m.availableAsked := by
  have hanswers (stations : List Interchange) :=
    answers_operateAll h stations (Memory.faithful_empty answer)
  have hnoted := noted_operateAll service scope stations .empty []
  have hnodup := nodup_unknown ∅ (stations.map Interchange.station)
  refine ⟨(service.operateAll scope stations .empty).2,
    (unknown ∅ (stations.map Interchange.station)).flatMap (service.questions scope),
    Prod.ext (hanswers stations) rfl, ?_, operateAll_eq stations .empty, fun station => ?_,
    fun station => ?_, ?_, ?_, fun others hperm => ?_⟩
  · rw [← hanswers stations]
    exact hnoted
  · rw [count_closed, hnodup.count]
    simp only [mem_unknown_empty]
  · rw [count_available, hnodup.count]
    simp only [mem_unknown_empty]
    cases service.isClosed station scope.date <;> simp
  · rw [memory_operateAll]
  · rw [memory_operateAll]
  · have hsame : (others.map Interchange.station).toFinset =
        (stations.map Interchange.station).toFinset :=
      List.toFinset_eq_of_perm _ _ (hperm.symm.map _)
    refine ⟨(service.operateAll scope others .empty).2, Prod.ext (hanswers others) rfl, ?_, ?_, ?_⟩
    · rw [← List.map_prod_left_eq_zip, ← List.map_prod_left_eq_zip]
      exact hperm.map _
    · rw [memory_operateAll service scope others, memory_operateAll service scope stations, hsame]
    · rw [memory_operateAll service scope others, memory_operateAll service scope stations, hsame]

end Service

/-! ## The city with a station closed -/

namespace SampleCity

/-- The city, with Deansgate closed for the year. -/
def deansgateClosed : Network :=
  .ofEdits (routes.map .route ++ .close "DEANSGATE" year :: stops)

/-- An interchange of some station; the timetable answers for the station. -/
def interchangeAt (text : String) : Interchange :=
  ⟨named text, [], []⟩

/-- Deansgate is asked about twice and Cornbrook once. -/
def visited : List Interchange :=
  [interchangeAt "DEANSGATE", interchangeAt "CORNBROOK", interchangeAt "DEANSGATE"]

/-- The timetable is asked whether they are closed, and of Cornbrook alone whether it is
available. -/
theorem deansgate_asked_once :
    deansgateClosed.service.AnswersFor scope
      (fun station => deansgateClosed.isAvailable station scope) ∧
    ∃ m asked, deansgateClosed.service.operateAll scope visited .empty =
        ([false, true, false], m) ∧
      (deansgateClosed.service.noted scope).operateAll visited ∅ [] =
        (([false, true, false], m.answers), asked) ∧
      asked.count (.closed (named "DEANSGATE")) = 1 ∧
      asked.count (.available (named "DEANSGATE")) = 0 ∧
      asked.count (.available (named "CORNBROOK")) = 1 ∧
      m.closedAsked = 2 ∧ m.availableAsked = 1 := by
  have hanswers := deansgateClosed.answersFor_service scope
  obtain ⟨m, asked, hrun, hnoted, -, hclosed, havailable, hclosedAsked, havailableAsked, -⟩ :=
    Service.operateAll_asks_once hanswers visited
  have hcornbrook : deansgateClosed.isAvailable (named "CORNBROOK") scope = true :=
    Network.isAvailable_iff.mpr (by decide +kernel)
  have hdeansgate : deansgateClosed.isAvailable (named "DEANSGATE") scope = false := by
    rw [← Bool.not_eq_true, Network.isAvailable_iff]
    decide +kernel
  have hfresh : visited.map (deansgateClosed.service.isOperating scope) =
      [false, true, false] := by
    simp only [visited, interchangeAt, List.map_cons, List.map_nil, hanswers _, hcornbrook,
      hdeansgate]
  rw [hfresh] at hrun hnoted
  refine ⟨hanswers, m, asked, hrun, hnoted, ?_, ?_, ?_, ?_, ?_⟩
  · rw [hclosed]
    decide
  · rw [havailable]
    decide +kernel
  · rw [havailable]
    decide +kernel
  · rw [hclosedAsked]
    decide +kernel
  · rw [havailableAsked]
    decide +kernel

end SampleCity
end TransitChanges
