import TransitChanges.Planner

/-!
# Ranking routes by their changes to a destination

A ranking is set up once for fixed destination routes and then asked about one route after another;
the answers about stations are remembered from one question to the next.  Routes are sorted by the
fewest changes from them to any destination, routes with the same number in their given order.

* `pairwise_ascending`, `mem_ascending`: the destinations are in order, each once.
-/

namespace TransitChanges

/-- The questions about fixed destination routes, given by index. -/
structure Ranking where
  enquiry : Enquiry
  destinations : List Nat

namespace Ranking

/-- Put a number into a list of ascending numbers, unless it is there. -/
def insertOnce (index : Nat) : List Nat → List Nat
  | [] => [index]
  | i :: rest =>
    if index < i then index :: i :: rest
    else if index = i then i :: rest
    else i :: insertOnce index rest

/-- The numbers of a list in ascending order, each once. -/
def ascending : List Nat → List Nat
  | [] => []
  | index :: indexes => insertOnce index (ascending indexes)

theorem mem_insertOnce {index i : Nat} {l : List Nat} :
    i ∈ insertOnce index l ↔ i = index ∨ i ∈ l := by
  induction l with
  | nil => simp [insertOnce]
  | cons j l ih =>
    unfold insertOnce
    split
    · simp
    · split
      · next h => simp [h]
      · rw [List.mem_cons, ih, List.mem_cons]
        exact or_left_comm

theorem pairwise_insertOnce {index : Nat} {l : List Nat} (h : l.Pairwise (· < ·)) :
    (insertOnce index l).Pairwise (· < ·) := by
  induction l with
  | nil => simp [insertOnce]
  | cons j l ih =>
    obtain ⟨hj, hl⟩ := List.pairwise_cons.mp h
    unfold insertOnce
    split
    · next hlt =>
      refine List.pairwise_cons.mpr ⟨fun k hk => ?_, h⟩
      rcases List.mem_cons.mp hk with rfl | hk
      · exact hlt
      · exact Nat.lt_trans hlt (hj k hk)
    · split
      · exact h
      · refine List.pairwise_cons.mpr ⟨fun k hk => ?_, ih hl⟩
        rcases mem_insertOnce.mp hk with rfl | hk
        · omega
        · exact hj k hk

/-- The destinations are in order, each once. -/
theorem pairwise_ascending : ∀ l : List Nat, (ascending l).Pairwise (· < ·)
  | [] => .nil
  | _ :: l => pairwise_insertOnce (pairwise_ascending l)

theorem mem_ascending {i : Nat} : ∀ {l : List Nat}, i ∈ ascending l ↔ i ∈ l
  | [] => Iff.rfl
  | j :: l => by rw [ascending, mem_insertOnce, mem_ascending, List.mem_cons]

variable (r : Ranking)

/-- The fewest changes from a route to any destination. -/
def fewestChanges (route : RouteId) : Asking Changes := do
  let start ← r.enquiry.indexOf route
  if r.destinations.contains start then return .exactly 0
  else r.enquiry.fewestTo start .unreachable r.destinations

/-- The items of a list with the fewest changes from the route of each. -/
def withChanges {α : Type} (route : α → RouteId) : List α → Asking (List (Changes × α))
  | [] => return []
  | item :: items => do
    let changes ← r.fewestChanges (route item)
    let rest ← withChanges route items
    return (changes, item) :: rest

/-- The items of a list in the order of the changes from the route of each. -/
def sort {α : Type} (route : α → RouteId) (items : List α) : Asking (List α) := do
  let ranked ← r.withChanges route items
  return (ranked.mergeSort fun a b => a.1 ≤ b.1).map Prod.snd

end Ranking

namespace Planner

variable (p : Planner)

/-- The ranking for the routes of a list, given by name. -/
def rankingForRoutes (destinations : List RouteId) (scope : Scope) : Except Fault Ranking := do
  let indexes ← destinations.mapM p.tables.numbering.indexOf
  return ⟨p.enquiry scope, Ranking.ascending indexes⟩

/-- The ranking for the routes that set down at a place. -/
def rankingFor (destinations : StationSet) (scope : Scope) : Except Fault Ranking :=
  p.rankingForRoutes ((p.service.dropoffsAt destinations scope).map Route.id) scope

end Planner
end TransitChanges
