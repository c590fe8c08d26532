import TransitChanges.Service

/-!
# Which interchanges operate

During a query an interchange operates if its station is not closed on the date and is available in
the scope of the query.  Every station's answer is remembered for the rest of the query, by station,
so a station is asked about once however often it occurs; a closed station is never asked whether it
is available.

`Memory` is what has been remembered, with the number of questions put to the timetable so far.

* `operates_of_known`: a remembered answer is given again, and nothing is asked.
* `operates_of_unknown`: a new answer is the timetable's, and it is remembered.
-/

namespace TransitChanges

/-- What is known about stations in the course of one query. -/
structure Memory where
  answers : Std.TreeMap StationId Bool
  /-- How often it was asked whether a station is closed. -/
  closedAsked : Nat
  /-- How often it was asked whether a station is available. -/
  availableAsked : Nat

namespace Memory

/-- Nothing is known yet. -/
def empty : Memory := ⟨∅, 0, 0⟩

end Memory

namespace Service

variable (service : Service)

/-- Whether an interchange operates, asked afresh. -/
def isOperating (scope : Scope) (interchange : Interchange) : Bool :=
  !service.isClosed interchange.station scope.date && service.isAvailable interchange scope

/-- The timetable answers for stations alone, whatever routes an interchange is asked with. -/
def AnswersFor (scope : Scope) (answer : StationId → Bool) : Prop :=
  ∀ interchange, service.isOperating scope interchange = answer interchange.station

/-- The interchanges of a list answer as their stations do. -/
def AnswersAt (scope : Scope) (interchanges : List Interchange)
    (answer : StationId → Bool) : Prop :=
  ∀ i ∈ interchanges, service.isOperating scope i = answer i.station

/-- Interchanges of one station in a list have one answer. -/
def Agrees (scope : Scope) (interchanges : List Interchange) : Prop :=
  ∀ i ∈ interchanges, ∀ j ∈ interchanges, i.station = j.station →
    service.isOperating scope i = service.isOperating scope j

/-- Whether an interchange operates, from memory if its station is known. -/
def operates (scope : Scope) (interchange : Interchange) : StateM Memory Bool := fun memory =>
  match memory.answers[interchange.station]? with
  | some answer => (answer, memory)
  | none =>
    let closed := service.isClosed interchange.station scope.date
    let answer := !closed && service.isAvailable interchange scope
    (answer,
      { answers := memory.answers.insert interchange.station answer
        closedAsked := memory.closedAsked + 1
        availableAsked := memory.availableAsked + if closed then 0 else 1 })

/-- Whether each of some interchanges operates, asked one after the other. -/
def operateAll (scope : Scope) : List Interchange → StateM Memory (List Bool)
  | [] => return []
  | interchange :: interchanges => do
    let answer ← service.operates scope interchange
    let rest ← operateAll scope interchanges
    return answer :: rest

/-- A remembered answer is given again, and nothing is asked. -/
theorem operates_of_known {scope : Scope} {interchange : Interchange} {memory : Memory}
    {answer : Bool} (h : memory.answers[interchange.station]? = some answer) :
    service.operates scope interchange memory = (answer, memory) := by
  unfold operates
  rw [h]

/-- A new answer is the timetable's, and it is remembered. -/
theorem operates_of_unknown {scope : Scope} {interchange : Interchange} {memory : Memory}
    (h : memory.answers[interchange.station]? = none) :
    (service.operates scope interchange memory).1 = service.isOperating scope interchange ∧
      (service.operates scope interchange memory).2.answers[interchange.station]? =
        some (service.isOperating scope interchange) := by
  unfold operates
  rw [h]
  exact ⟨rfl, Std.TreeMap.getElem?_insert_self⟩

end Service
end TransitChanges
