import TransitChanges.Numbering

/-!
# What a numbering says

A numbering keeps its routes by index and its indexes by name, and the two need not agree: where
routes share a name, the name leads to the last of them alone.  What holds of every numbering that
was built is one direction, that a name leads to a route of that name (`NamesKept`).  It makes
names with one index equal (`NamesApart`), which is all that the rounds need.

The other direction, that a route is found under its name, holds where no two routes share one
(`indexOf_eq_ok_iff_of_nodup`).

* `namesKept_of_build`: a built numbering keeps names.
* `exists_indexOf_of_build`: a built numbering has an index for every name that is served.
-/

namespace TransitChanges.Numbering

/-- A name leads to a route of that name. -/
def NamesKept (n : Numbering) : Prop :=
  ∀ ⦃id index⦄, n.indexOf id = .ok index →
    ∃ route, n.routes[index]? = some route ∧ route.id = id

/-- Different names lead to different indexes. -/
def NamesApart (n : Numbering) : Prop :=
  ∀ ⦃id id' index⦄, n.indexOf id = .ok index → n.indexOf id' = .ok index → id = id'

variable {n : Numbering} {source : RouteSource} {routes : List Route}

/-! ## Indexes of names -/

/-- An index that a list gives a name is the place of a route of that name. -/
theorem exists_of_getElem?_indexNames {next index : Nat} {map : Std.TreeMap RouteId Nat}
    {id : RouteId} (h : (indexNames next map routes)[id]? = some index) :
    map[id]? = some index ∨
      ∃ place route, routes[place]? = some route ∧ route.id = id ∧ index = next + place := by
  induction routes generalizing next map with
  | nil => exact .inl h
  | cons route routes ih =>
    rw [indexNames] at h
    rcases ih h with hmap | ⟨place, r, hr, hid, rfl⟩
    · rw [Std.TreeMap.getElem?_insert] at hmap
      split at hmap
      · next heq =>
        refine .inr ⟨0, route, rfl, Name.compare_eq_iff.mp heq, ?_⟩
        exact (Option.some.inj hmap).symm
      · exact .inl hmap
    · refine .inr ⟨place + 1, r, hr, hid, ?_⟩
      omega

/-- A name that a list holds is given an index, and one that has an index keeps having one. -/
theorem exists_getElem?_indexNames {next : Nat} {map : Std.TreeMap RouteId Nat} {id : RouteId}
    (h : (∃ index, map[id]? = some index) ∨ ∃ route ∈ routes, route.id = id) :
    ∃ index, (indexNames next map routes)[id]? = some index := by
  induction routes generalizing next map with
  | nil =>
    rcases h with h | ⟨route, hmem, -⟩
    · exact h
    · cases hmem
  | cons route routes ih =>
    rw [indexNames]
    refine ih ?_
    rw [Std.TreeMap.getElem?_insert]
    split
    · exact .inl ⟨next, rfl⟩
    · next hne =>
      rcases h with h | ⟨r, hmem, hid⟩
      · exact .inl h
      · rcases List.mem_cons.mp hmem with rfl | hmem
        · exact absurd (Name.compare_eq_iff.mpr hid) hne
        · exact .inr ⟨r, hmem, hid⟩

/-! ## Built numberings -/

theorem eq_ofSorted_of_build (h : build source = .ok n) :
    n = ofSorted (source.routes.mergeSort fun r s => r.id.le s.id) := by
  unfold build at h
  split at h
  · exact (Except.ok.inj h).symm
  · cases h

theorem build_of_le (h : source.routes.length ≤ maxRoutes) :
    build source = .ok (ofSorted (source.routes.mergeSort fun r s => r.id.le s.id)) :=
  if_pos h

/-- The routes of a built numbering are those that are served. -/
theorem mem_routes_of_build (h : build source = .ok n) {route : Route} :
    (∃ index : Nat, n.routes[index]? = some route) ↔ route ∈ source.routes := by
  rw [eq_ofSorted_of_build h, ofSorted]
  simp only [List.getElem?_toArray]
  rw [← List.mem_iff_getElem?, List.mem_mergeSort]

/-- **A built numbering keeps names.** -/
theorem namesKept_of_build (h : build source = .ok n) : n.NamesKept := by
  intro id index hindex
  rw [indexOf_eq_ok_iff] at hindex
  rw [eq_ofSorted_of_build h] at hindex ⊢
  rcases exists_of_getElem?_indexNames hindex with hempty | ⟨place, route, hroute, hid, heq⟩
  · rw [Std.TreeMap.getElem?_emptyc] at hempty
    cases hempty
  · rw [Nat.zero_add] at heq
    subst heq
    refine ⟨route, ?_, hid⟩
    rw [ofSorted, List.getElem?_toArray]
    exact hroute

/-- A built numbering has an index for every name that is served. -/
theorem exists_indexOf_of_build (h : build source = .ok n) {route : Route}
    (hmem : route ∈ source.routes) : ∃ index, n.indexOf route.id = .ok index := by
  simp only [indexOf_eq_ok_iff]
  rw [eq_ofSorted_of_build h]
  exact exists_getElem?_indexNames (.inr ⟨route, List.mem_mergeSort.mpr hmem, rfl⟩)

/-! ## Numberings that keep names -/

theorem pairOf_eq_ok {first second : RouteId} {i j : Nat} (hi : n.indexOf first = .ok i)
    (hj : n.indexOf second = .ok j) : n.pairOf first second = .ok ⟨i, j⟩ := by
  rw [pairOf, hi, hj]
  rfl

/-- Names with one index are that of its route. -/
theorem NamesKept.apart (hn : n.NamesKept) : n.NamesApart := by
  intro id id' index h h'
  obtain ⟨route, hroute, rfl⟩ := hn h
  obtain ⟨route', hroute', rfl⟩ := hn h'
  rw [hroute] at hroute'
  rw [Option.some.inj hroute']

/-- An index that a name has is below the number of routes. -/
theorem NamesKept.indexOf_lt (hn : n.NamesKept) {id : RouteId} {index : Nat}
    (h : n.indexOf id = .ok index) : index < n.size := by
  obtain ⟨route, hroute, -⟩ := hn h
  exact (Array.getElem?_eq_some_iff.mp hroute).1

/-- Where no two routes share a name, the index of a name is the place of the route of that
name. -/
theorem indexOf_eq_ok_iff_of_nodup (h : build source = .ok n)
    (hnodup : (source.routes.map Route.id).Nodup) {id : RouteId} {index : Nat} :
    n.indexOf id = .ok index ↔ ∃ route, n.routes[index]? = some route ∧ route.id = id := by
  constructor
  · exact fun hindex => namesKept_of_build h hindex
  · rintro ⟨route, hroute, rfl⟩
    obtain ⟨index', hindex'⟩ :=
      exists_indexOf_of_build h ((mem_routes_of_build h).mp ⟨index, hroute⟩)
    obtain ⟨route', hroute', hid⟩ := namesKept_of_build h hindex'
    have hsorted : ((source.routes.mergeSort fun r s => r.id.le s.id).map Route.id).Nodup :=
      (((List.mergeSort_perm ..).map Route.id).nodup_iff).mpr hnodup
    rw [eq_ofSorted_of_build h, ofSorted, List.getElem?_toArray] at hroute hroute'
    have hname (k : Nat) {r : Route}
        (hr : (source.routes.mergeSort fun r s => r.id.le s.id)[k]? = some r) :
        ((source.routes.mergeSort fun r s => r.id.le s.id).map Route.id)[k]? = some r.id := by
      rw [List.getElem?_map, hr]
      rfl
    have hlt := (List.getElem?_eq_some_iff.mp (hname index hroute)).1
    have heq : index = index' := by
      refine (List.getElem?_inj hlt hsorted).mp ?_
      rw [hname index hroute, hname index' hroute', hid]
    rw [heq]
    exact hindex'

end TransitChanges.Numbering
