import TransitChanges.Proofs.NameOrder
import TransitChanges.Proofs.NumberingRecords
import TransitChanges.Proofs.Sorting

/-!
# The order of a numbering

A numbering is built whenever there are not too many routes, and then every index fits in sixteen
bits.  The routes stand in the byte order of their names, and routes of one name in the order of the
source, so a repeated name leads to the route that was listed last.

A numbering is valid if names and indexes lead back and forth.  For one that was built this says
that no name is repeated, for one that was told by records that no route was renamed.

* `error_of_build_iff`: when there are too many routes.
* `inOrder_of_build`: what a built numbering looks like.
* `isValid_iff_of_isMade`: when a numbering is valid, however it was made.
-/

namespace TransitChanges
namespace Numbering

variable {source : RouteSource} {n : Numbering} {routes : List Route}

/-! ## Too many routes -/

theorem error_of_build_iff {fault : Fault} : build source = .error fault ↔
    maxRoutes < source.routes.length ∧
      fault = .tooManyRoutes source.routes.length maxRoutes := by
  unfold build
  split
  · next hle => simp [Nat.not_lt.mpr hle]
  · next hle => simp [Nat.lt_of_not_le hle, eq_comm]

/-! ## The place of a name -/

/-- A name is given the place of its last route. -/
theorem le_of_getElem?_indexNames {next index place : Nat} {map : Std.TreeMap RouteId Nat}
    {route : Route} (hroute : routes[place]? = some route)
    (hindex : (indexNames next map routes)[route.id]? = some index) : next + place ≤ index := by
  induction routes generalizing next map place with
  | nil => cases hroute
  | cons r routes ih =>
    rw [indexNames] at hindex
    -- what comes after the route can only give its name a later place
    cases place with
    | zero =>
      obtain rfl := Option.some.inj hroute
      rcases exists_of_getElem?_indexNames hindex with hmap | ⟨later, -, -, -, rfl⟩
      · rw [Std.TreeMap.getElem?_insert_self] at hmap
        exact Nat.le_of_eq (Option.some.inj hmap)
      · omega
    | succ place =>
      have hlater := ih hroute hindex
      omega

/-- The numbering of a source in the order of names.  Every name that is served, and no other, has
an index, which is the last place of a route of that name. -/
structure InOrder (n : Numbering) (source : RouteSource) : Prop where
  routes_perm : n.routes.toList.Perm source.routes
  ascending : n.routes.toList.Pairwise fun r s => r.id.bytes ≤ s.id.bytes
  stable : ∀ id,
    (n.routes.toList.filter fun r => r.id = id) = source.routes.filter fun r => r.id = id
  has_index_iff : ∀ id, (∃ index, n.indexOf id = .ok index) ↔ ∃ r ∈ source.routes, r.id = id
  named : ∀ id index, n.indexOf id = .ok index →
    ∃ route, n.routeAt index = .ok route ∧ route.id = id
  last : ∀ id index, n.indexOf id = .ok index →
    ∀ place route, n.routeAt place = .ok route → route.id = id → place ≤ index
  kept : ∀ index < n.size, short index = index

section Built

variable (hn : build source = .ok n)
include hn

theorem toList_routes_of_build :
    n.routes.toList = source.routes.mergeSort fun r s => r.id.le s.id := by
  rw [eq_ofSorted_of_build hn]
  rfl

theorem pairwise_bytes_of_build :
    n.routes.toList.Pairwise fun r s => r.id.bytes ≤ s.id.bytes := by
  have hsorted : (source.routes.mergeSort fun r s => r.id.le s.id).Pairwise
      fun r s => r.id.le s.id = true :=
    pairwise_mergeSort_of_order (compareOn Route.id) (fun _ _ => rfl) source.routes
  rw [toList_routes_of_build hn]
  exact hsorted.imp fun h => Name.le_iff_bytes_le.mp h

/-- Routes of one name stand in the order of the source. -/
theorem filter_routes_of_build (id : RouteId) : (n.routes.toList.filter fun r => r.id = id) =
    source.routes.filter fun r => r.id = id := by
  have hrank (r s : Route) (hr : decide (r.id = id) = true) (hs : decide (s.id = id) = true) :
      r.id.le s.id = true := by
    rw [of_decide_eq_true hr, of_decide_eq_true hs]
    exact Name.le_iff_bytes_le.mpr (List.le_refl _)
  rw [toList_routes_of_build hn]
  exact filter_mergeSort_of_order (compareOn Route.id) (fun _ _ => rfl) hrank _

/-- **A built numbering is in the order of names.** -/
theorem inOrder_of_build : n.InOrder source where
  routes_perm := perm_routes_of_build hn
  ascending := pairwise_bytes_of_build hn
  stable := filter_routes_of_build hn
  has_index_iff id := by
    constructor
    · rintro ⟨index, hindex⟩
      obtain ⟨route, hroute, hid⟩ := namesKept_of_build hn hindex
      exact ⟨route, (mem_routes_of_build hn).mp ⟨index, hroute⟩, hid⟩
    · rintro ⟨route, hroute, rfl⟩
      exact exists_indexOf_of_build hn hroute
  named id index hindex := by
    obtain ⟨route, hroute, hid⟩ := namesKept_of_build hn hindex
    exact ⟨route, routeAt_eq_ok_iff.mpr hroute, hid⟩
  last id index hindex place route hroute hid := by
    subst hid
    rw [indexOf_eq_ok_iff, eq_ofSorted_of_build hn] at hindex
    rw [routeAt_eq_ok_iff, ← Array.getElem?_toList, toList_routes_of_build hn] at hroute
    have hle := le_of_getElem?_indexNames hroute hindex
    rwa [Nat.zero_add] at hle
  kept index hindex := by
    refine short_eq (Nat.lt_of_lt_of_le hindex (Nat.le_trans (size_le_of_build hn) ?_))
    decide

/-- Where routes are found under their names, no name is repeated. -/
theorem nodup_of_findsRoutes (h : n.FindsRoutes) : (source.routes.map Route.id).Nodup := by
  rw [← names_nodup_iff_of_build hn, map_route_records, List.Nodup, List.pairwise_map,
    List.pairwise_iff_getElem]
  intro i j hi hj hlt heq
  have hindex (k : Nat) (hk : k < n.routes.toList.length) :
      n.indexOf n.routes.toList[k].id = .ok k :=
    h (by rw [← Array.getElem?_toList, List.getElem?_eq_getElem hk])
  have hsame := (hindex i hi).symm.trans ((congrArg n.indexOf heq).trans (hindex j hj))
  exact Nat.ne_of_lt hlt (Except.ok.inj hsame)

end Built

/-! ## Validity -/

/-- Routes are found under their names if every index leads to a route whose name leads back. -/
theorem findsRoutes_iff : n.FindsRoutes ↔
    ∀ index < n.size, ∃ route, n.routeAt index = .ok route ∧ n.indexOf route.id = .ok index := by
  constructor
  · intro h index hindex
    have hroute : n.routes[index]? = some n.routes[index] := Array.getElem?_eq_getElem hindex
    exact ⟨_, routeAt_eq_ok_iff.mpr hroute, h hroute⟩
  · intro h index route hroute
    obtain ⟨route', hat, hindex⟩ := h index (Array.getElem?_eq_some_iff.mp hroute).1
    obtain rfl := Option.some.inj (hroute.symm.trans (routeAt_eq_ok_iff.mp hat))
    exact hindex

/-- **A numbering is valid** if names and indexes lead back and forth. -/
theorem isValid_iff_of_isMade (hn : n.IsMade) : n.isValid = true ↔ n.FindsRoutes := by
  rcases hn with ⟨source, hbuild⟩ | ⟨source, records, hrecords⟩
  · refine ⟨fun h => (isValid_iff.mp h).2, fun h => ?_⟩
    exact (isValid_iff_nodup_of_build hbuild).mpr (nodup_of_findsRoutes hbuild h)
  · exact isValid_iff_of_ofRecords hrecords

/-- **A numbering is built in the order of names unless there are too many routes.**  It is valid
exactly if no name is repeated; and in general a numbering is valid exactly if every index leads to
a route whose name leads back to it. -/
theorem ordered_unless_tooMany (source : RouteSource) :
    (∀ fault, build source = .error fault ↔ maxRoutes < source.routes.length ∧
      fault = .tooManyRoutes source.routes.length maxRoutes) ∧
    (source.routes.length ≤ maxRoutes → ∃ n, build source = .ok n ∧ n.InOrder source ∧
      (n.isValid = true ↔ (source.routes.map Route.id).Nodup)) ∧
    ∀ n : Numbering, n.IsMade → (n.isValid = true ↔
      ∀ index < n.size, ∃ route, n.routeAt index = .ok route ∧ n.indexOf route.id = .ok index) := by
  refine ⟨fun fault => error_of_build_iff, fun hle => ?_, fun n hn => ?_⟩
  · have hn := build_of_le hle
    exact ⟨_, hn, inOrder_of_build hn, isValid_iff_nodup_of_build hn⟩
  · rw [isValid_iff_of_isMade hn, findsRoutes_iff]

end Numbering

/-! ## A name that is listed twice -/

namespace ListedTwice

open SampleCity

/-- Another route of the name `A`. -/
def again : Route := { Renamed.first with name := "again" }

/-- A timetable that serves two routes under the name `A`, and lists them after `B`. -/
def source : RouteSource where
  routes := [Renamed.second, Renamed.first, again]
  count := 3
  find? _ := none

theorem build_source :
    Numbering.build source = .ok (.ofSorted [Renamed.first, again, Renamed.second]) := by
  have hfirst : Renamed.second.id.le Renamed.first.id = false := by decide
  have hagain : Renamed.second.id.le again.id = false := by decide
  have hsame : Renamed.first.id.le again.id = true := by decide
  rw [Numbering.build_of_le (by decide)]
  simp [source, List.mergeSort, hfirst, hagain, hsame]

/-- Both routes have an index, and the name leads to the later one. -/
theorem leads_to_last : ∃ n, Numbering.build source = .ok n ∧ n.InOrder source ∧
    n.indexOf (named "A") = .ok 1 ∧ n.routeAt 0 = .ok Renamed.first ∧ n.routeAt 1 = .ok again ∧
    n.isValid = false ∧
    ¬ ∀ index < n.size, ∃ route, n.routeAt index = .ok route ∧ n.indexOf route.id = .ok index := by
  obtain ⟨-, hbuilt, hvalid⟩ := Numbering.ordered_unless_tooMany source
  obtain ⟨n, hn, horder, hnodup⟩ := hbuilt (by decide)
  have hnot : ¬ n.isValid = true := by
    rw [hnodup]
    decide
  obtain rfl := Except.ok.inj (build_source.symm.trans hn)
  exact ⟨_, hn, horder, rfl, rfl, rfl, Bool.eq_false_iff.mpr hnot,
    (hvalid _ (.inl ⟨source, hn⟩)).not.mp hnot⟩

end ListedTwice
end TransitChanges
