import Mathlib.Data.List.Perm.Subperm
import TransitChanges.Proofs.FieldWidths
import TransitChanges.Proofs.LastEntries
import TransitChanges.Proofs.Numbering
import TransitChanges.SampleCity

/-!
# A numbering told by records

The records of a numbering put routes in slots.  They are accepted if there are as many of them as
the source counts routes, all of their names lead to routes, their indexes are those from 0 on, each
once, and no name is repeated (`Numbering.Accepts`).  What is tested is less: that an index is in
range and its slot empty, and that there are as many names as slots.  As many different indexes as
there are slots fill all of them, so this is the same.

The names of the records are the only ones with an index, but the routes that stand in the slots may
have other names: a source can find a route under a name that the route does not carry.  That is
what the test for validity is for.

* `placeAll_eq_ok_iff`: what a run over records asks for, and what it leaves.
* `exists_ofRecords_iff`, `tells_of_ofRecords`: which records are accepted, and what they tell.
* `size_of_ofRecords`, `namesApart_of_ofRecords`: what holds whatever routes the source finds.
* `ofRecords_records`: the records of a built numbering.
* `told_iff_accepted`: all of this together, with when a numbering is valid.
-/

namespace TransitChanges

/-- A source answers from its list: no two of its routes share a name, and it counts the routes and
finds each of them. -/
structure RouteSource.Faithful (source : RouteSource) : Prop where
  nodup : (source.routes.map Route.id).Nodup
  count_eq : source.count = source.routes.length
  find?_eq {r : Route} : r ∈ source.routes → source.find? r.id = some r

namespace Numbering

variable {source : RouteSource} {n : Numbering} {routes : List Route} {records : List IndexRecord}
  {slots slots' : Array (Option Route)} {indexes indexes' : Std.TreeMap RouteId Nat}

/-! ## A run over records -/

/-- The slots after records: in the slot of each stands the route that its name leads to. -/
def slotsAfter (source : RouteSource) (slots : Array (Option Route)) (records : List IndexRecord) :
    Array (Option Route) :=
  records.foldl (fun slots r => slots.setIfInBounds r.index (source.find? r.route)) slots

/-- The indexes of names after records; of a repeated name the last. -/
def indexesAfter (indexes : Std.TreeMap RouteId Nat) (records : List IndexRecord) :
    Std.TreeMap RouteId Nat :=
  (records.map fun r => (r.route, r.index)).foldl (fun map e => map.insert e.1 e.2) indexes

theorem getElem?_setIfInBounds_eq_none_iff {i j : Nat} {route : Route} :
    (slots.setIfInBounds i (some route))[j]? = some none ↔ i ≠ j ∧ slots[j]? = some none := by
  rw [Array.getElem?_setIfInBounds]
  split
  · next h =>
    subst h
    split <;> simp
  · next h => simp [h]

/-- **A run over records asks** that every name leads to a route, that every index is that of an
empty slot, and that no index is repeated. -/
theorem placeAll_eq_ok_iff : placeAll source slots indexes records = .ok (slots', indexes') ↔
    (∀ r ∈ records, (∃ route, source.find? r.route = some route) ∧ slots[r.index]? = some none) ∧
    (records.map IndexRecord.index).Nodup ∧
    slots' = slotsAfter source slots records ∧ indexes' = indexesAfter indexes records := by
  induction records generalizing slots indexes with
  | nil => simp [placeAll, slotsAfter, indexesAfter, eq_comm]
  | cons r records ih =>
    rw [placeAll, List.forall_mem_cons, List.map_cons, List.nodup_cons]
    cases hfind : source.find? r.route with
    | none => simp
    | some route =>
      have hslots : slotsAfter source slots (r :: records) =
          slotsAfter source (slots.setIfInBounds r.index (some route)) records := by
        rw [slotsAfter, List.foldl_cons, hfind, slotsAfter]
      have hindexes : indexesAfter indexes (r :: records) =
          indexesAfter (indexes.insert r.route r.index) records := rfl
      dsimp only
      by_cases hempty : slots[r.index]? = some none
      · -- a slot is empty later on exactly if it is another slot and is empty now
        rw [if_pos hempty, ih, hslots, hindexes]
        simp only [getElem?_setIfInBounds_eq_none_iff, hempty, List.mem_map, not_exists, not_and]
        constructor
        · rintro ⟨hrest, hnodup, hresult⟩
          refine ⟨⟨⟨⟨route, rfl⟩, trivial⟩, fun s hs => ⟨(hrest s hs).1, (hrest s hs).2.2⟩⟩,
            ⟨?_, hnodup⟩, hresult⟩
          exact fun s hs heq => (hrest s hs).2.1 heq.symm
        · rintro ⟨⟨-, hrest⟩, ⟨hnew, hnodup⟩, hresult⟩
          refine ⟨fun s hs => ⟨(hrest s hs).1, ?_, (hrest s hs).2⟩, hnodup, hresult⟩
          exact fun heq => hnew s hs heq.symm
      · simp [hempty]

theorem size_slotsAfter : (slotsAfter source slots records).size = slots.size := by
  induction records generalizing slots with
  | nil => rfl
  | cons r records ih => exact ih.trans Array.size_setIfInBounds

theorem getElem?_slotsAfter_of_forall_ne {i : Nat} (h : ∀ r ∈ records, r.index ≠ i) :
    (slotsAfter source slots records)[i]? = slots[i]? := by
  induction records generalizing slots with
  | nil => rfl
  | cons r records ih =>
    obtain ⟨hne, hrest⟩ := List.forall_mem_cons.mp h
    rw [slotsAfter, List.foldl_cons]
    exact (ih hrest).trans (Array.getElem?_setIfInBounds_ne hne)

/-- Where no index is repeated, a slot keeps the route that is put in it. -/
theorem getElem?_slotsAfter (hnodup : (records.map IndexRecord.index).Nodup) {r : IndexRecord}
    (hr : r ∈ records) (hlt : r.index < slots.size) :
    (slotsAfter source slots records)[r.index]? = some (source.find? r.route) := by
  induction records generalizing slots with
  | nil => cases hr
  | cons s records ih =>
    rw [List.map_cons, List.nodup_cons] at hnodup
    rw [slotsAfter, List.foldl_cons]
    rcases List.mem_cons.mp hr with rfl | hr
    · refine (getElem?_slotsAfter_of_forall_ne fun s hs heq => ?_).trans
        (Array.getElem?_setIfInBounds_self_of_lt hlt)
      exact hnodup.1 (List.mem_map.mpr ⟨s, hs, heq⟩)
    · exact ih hnodup.2 hr (by rwa [Array.size_setIfInBounds])

/-- Slots that are all filled hold a list of routes. -/
theorem exists_eq_map_some {α : Type} {slots : List (Option α)}
    (h : ∀ slot ∈ slots, ∃ a, slot = some a) : ∃ l : List α, slots = l.map some := by
  induction slots with
  | nil => exact ⟨[], rfl⟩
  | cons slot slots ih =>
    obtain ⟨⟨a, rfl⟩, hrest⟩ := List.forall_mem_cons.mp h
    obtain ⟨l, rfl⟩ := ih hrest
    exact ⟨a :: l, rfl⟩

/-! ## Records that are accepted -/

/-- The records number the routes of a source: there are as many as it counts, each names a route
that it finds, and they give the indexes from 0 on to different names, each once. -/
structure Accepts (source : RouteSource) (records : List IndexRecord) : Prop where
  length_eq : records.length = source.count
  found : ∀ r ∈ records, ∃ route, source.find? r.route = some route
  indexes_perm : (records.map IndexRecord.index).Perm (List.range source.count)
  names_nodup : (records.map IndexRecord.route).Nodup

/-- A numbering is what records say: each name has the index of its record, and no other name has
one, and at the index stands the route that the source finds under the name. -/
structure Tells (n : Numbering) (source : RouteSource) (records : List IndexRecord) : Prop where
  size_eq : n.size = records.length
  indexOf_iff : ∀ id index, n.indexOf id = .ok index ↔ ⟨index, id⟩ ∈ records
  routeAt : ∀ r ∈ records,
    ∃ route, source.find? r.route = some route ∧ n.routeAt r.index = .ok route

namespace Accepts

theorem eq_of_index_eq (h : Accepts source records) {r s : IndexRecord} (hr : r ∈ records)
    (hs : s ∈ records) (hindex : r.index = s.index) : r = s :=
  List.inj_on_of_nodup_map (h.indexes_perm.nodup_iff.mpr List.nodup_range) hr hs hindex

theorem exists_mem_of_lt (h : Accepts source records) {index : Nat} (hlt : index < source.count) :
    ∃ r ∈ records, r.index = index :=
  List.mem_map.mp (h.indexes_perm.mem_iff.mpr (List.mem_range.mpr hlt))

end Accepts

/-- Different indexes below their number are all indexes below it. -/
theorem indexes_perm_iff : (records.map IndexRecord.index).Perm (List.range records.length) ↔
    (records.map IndexRecord.index).Nodup ∧ ∀ r ∈ records, r.index < records.length := by
  constructor
  · intro hperm
    refine ⟨hperm.nodup_iff.mpr List.nodup_range, fun r hr => ?_⟩
    exact List.mem_range.mp (hperm.mem_iff.mp (List.mem_map.mpr ⟨r, hr, rfl⟩))
  · rintro ⟨hnodup, hlt⟩
    have hsubset : records.map IndexRecord.index ⊆ List.range records.length := by
      intro index hindex
      obtain ⟨r, hr, rfl⟩ := List.mem_map.mp hindex
      exact List.mem_range.mpr (hlt r hr)
    exact (List.subperm_of_subset hnodup hsubset).perm_of_length_le (by simp)

theorem ofRecords_eq_ok_iff : ofRecords source records = .ok n ↔
    records.length = source.count ∧ ∃ slots indexes,
      placeAll source (Array.replicate records.length none) ∅ records = .ok (slots, indexes) ∧
        (slots.filterMap id).size = indexes.size ∧ n = ⟨slots.filterMap id, indexes⟩ := by
  unfold ofRecords
  split
  · next hlength =>
    simp only [Fault.bind_eq_ok_iff, Prod.exists, hlength, true_and]
    refine exists_congr fun slots => exists_congr fun indexes => and_congr_right fun _ => ?_
    split
    · next hsize => simp [hsize, eq_comm]
    · next hsize => simp [hsize]
  · next hlength => simp [hlength]

/-- Accepted records fill the slots with the routes that their names lead to. -/
theorem exists_slotsAfter_eq (hfound : ∀ r ∈ records, ∃ route, source.find? r.route = some route)
    (hperm : (records.map IndexRecord.index).Perm (List.range records.length)) :
    ∃ routes : List Route,
      slotsAfter source (Array.replicate records.length none) records =
        (routes.map some).toArray ∧
      routes.length = records.length ∧ ∀ r ∈ records, source.find? r.route = routes[r.index]? := by
  obtain ⟨hnodup, hlt⟩ := indexes_perm_iff.mp hperm
  have hsize : (slotsAfter source (Array.replicate records.length none) records).size =
      records.length := by rw [size_slotsAfter, Array.size_replicate]
  have hslot (r : IndexRecord) (hr : r ∈ records) :
      (slotsAfter source (Array.replicate records.length none) records)[r.index]? =
        some (source.find? r.route) :=
    getElem?_slotsAfter hnodup hr (by rw [Array.size_replicate]; exact hlt r hr)
  generalize hslots : slotsAfter source (Array.replicate records.length none) records = slots
    at hsize hslot
  -- the indexes of the records are all there are, so no slot is left empty
  obtain ⟨routes, hroutes⟩ : ∃ routes : List Route, slots.toList = routes.map some := by
    refine exists_eq_map_some fun slot hmem => ?_
    obtain ⟨index, hindex, rfl⟩ := List.mem_iff_getElem.mp hmem
    have hin : index ∈ records.map IndexRecord.index :=
      hperm.mem_iff.mpr (List.mem_range.mpr (by rw [← hsize]; exact hindex))
    obtain ⟨r, hr, rfl⟩ := List.mem_map.mp hin
    obtain ⟨route, hroute⟩ := hfound r hr
    have hfilled := hslot r hr
    rw [hroute, ← Array.getElem?_toList, List.getElem?_eq_getElem hindex] at hfilled
    exact ⟨route, Option.some.inj hfilled⟩
  refine ⟨routes, by rw [← hroutes, Array.toArray_toList], ?_, fun r hr => ?_⟩
  · rw [← hsize, ← Array.length_toList, hroutes, List.length_map]
  · have hfilled := hslot r hr
    obtain ⟨route, hroute⟩ := hfound r hr
    rw [← Array.getElem?_toList, hroutes, List.getElem?_map, hroute, Option.map_eq_some_iff]
      at hfilled
    obtain ⟨route', hroute', heq⟩ := hfilled
    rw [hroute, hroute', Option.some.inj heq]

theorem size_indexesAfter_eq_iff : (indexesAfter ∅ records).size = records.length ↔
    (records.map IndexRecord.route).Nodup := by
  have hlost := size_foldl_insert_eq_iff (records.map fun r => (r.route, r.index)) ∅
  rw [List.length_map, Std.TreeMap.size_emptyc, Nat.zero_add, List.map_map] at hlost
  refine hlost.trans (and_iff_right fun e _ => Std.TreeMap.not_mem_emptyc)

/-- **Accepted records tell a numbering.** -/
theorem ofRecords_of_accepts (h : Accepts source records) : ∃ routes : List Route,
    ofRecords source records = .ok ⟨routes.toArray, indexesAfter ∅ records⟩ ∧
      routes.length = records.length ∧
      ∀ r ∈ records, source.find? r.route = routes[r.index]? := by
  have hperm := h.indexes_perm
  rw [← h.length_eq] at hperm
  obtain ⟨hnodup, hlt⟩ := indexes_perm_iff.mp hperm
  obtain ⟨routes, hslots, hlength, hroutes⟩ := exists_slotsAfter_eq h.found hperm
  refine ⟨routes, ofRecords_eq_ok_iff.mpr ⟨h.length_eq, _, _, placeAll_eq_ok_iff.mpr
    ⟨fun r hr => ⟨h.found r hr, ?_⟩, hnodup, rfl, rfl⟩, ?_, ?_⟩, hlength, hroutes⟩
  · rw [Array.getElem?_replicate, if_pos (hlt r hr)]
  · rw [hslots, size_indexesAfter_eq_iff.mpr h.names_nodup, ← hlength]
    simp
  · rw [hslots]
    simp

/-- **Only accepted records tell a numbering.** -/
theorem accepts_of_ofRecords (h : ofRecords source records = .ok n) : Accepts source records := by
  obtain ⟨hlength, slots, indexes, hplace, hsize, -⟩ := ofRecords_eq_ok_iff.mp h
  obtain ⟨hrecords, hnodup, rfl, rfl⟩ := placeAll_eq_ok_iff.mp hplace
  have hperm : (records.map IndexRecord.index).Perm (List.range records.length) := by
    refine indexes_perm_iff.mpr ⟨hnodup, fun r hr => ?_⟩
    have hslot := (Array.getElem?_eq_some_iff.mp (hrecords r hr).2).1
    rwa [Array.size_replicate] at hslot
  -- as many names as filled slots are as many names as records
  obtain ⟨routes, hslots, hroutes, -⟩ :=
    exists_slotsAfter_eq (fun r hr => (hrecords r hr).1) hperm
  refine ⟨hlength, fun r hr => (hrecords r hr).1, hlength ▸ hperm, ?_⟩
  rw [← size_indexesAfter_eq_iff, ← hsize, hslots, ← hroutes]
  simp

/-- Which records are accepted. -/
theorem exists_ofRecords_iff : (∃ n, ofRecords source records = .ok n) ↔ Accepts source records :=
  ⟨fun h => accepts_of_ofRecords h.choose_spec,
    fun h => ⟨_, (ofRecords_of_accepts h).choose_spec.1⟩⟩

/-- **What accepted records tell.** -/
theorem tells_of_ofRecords (h : ofRecords source records = .ok n) : n.Tells source records := by
  have haccepts := accepts_of_ofRecords h
  obtain ⟨routes, hrecords, hlength, hroutes⟩ := ofRecords_of_accepts haccepts
  obtain rfl := Except.ok.inj (h.symm.trans hrecords)
  refine ⟨hlength, fun id index => ?_, fun r hr => ?_⟩
  · have hnodup : ((records.map fun r => (r.route, r.index)).map Prod.fst).Nodup := by
      rw [List.map_map]
      exact haccepts.names_nodup
    rw [indexOf_eq_ok_iff, indexesAfter, getElem?_foldl_insert_iff_mem hnodup, List.mem_map]
    constructor
    · rintro ⟨r, hr, heq⟩
      obtain ⟨rfl, rfl⟩ := Prod.mk.inj heq
      exact hr
    · exact fun hr => ⟨_, hr, rfl⟩
  · obtain ⟨route, hroute⟩ := haccepts.found r hr
    refine ⟨route, hroute, routeAt_eq_ok_iff.mpr ?_⟩
    rw [List.getElem?_toArray, ← hroutes r hr, hroute]

/-- A numbering that records tell has an index for each of them. -/
theorem size_of_ofRecords (h : ofRecords source records = .ok n) : n.size = records.length :=
  (tells_of_ofRecords h).size_eq

/-- **Records give no two names one index**, whatever routes the source finds under the names. -/
theorem namesApart_of_ofRecords (h : ofRecords source records = .ok n) : n.NamesApart := by
  intro id id' index hid hid'
  rw [(tells_of_ofRecords h).indexOf_iff] at hid hid'
  exact congrArg IndexRecord.route ((accepts_of_ofRecords h).eq_of_index_eq hid hid' rfl)

/-! ## Validity -/

theorem mem_records_iff {r : IndexRecord} :
    r ∈ n.records ↔ ∃ route, n.routes[r.index]? = some route ∧ route.id = r.route := by
  simp only [Numbering.records, List.mem_map, Prod.exists, List.mem_zipIdx_iff_getElem?,
    Array.getElem?_toList]
  constructor
  · rintro ⟨route, index, hroute, rfl⟩
    exact ⟨route, hroute, rfl⟩
  · rintro ⟨route, hroute, hid⟩
    refine ⟨route, r.index, hroute, ?_⟩
    rw [hid]

/-- Every route is found under its name. -/
def FindsRoutes (n : Numbering) : Prop :=
  ∀ ⦃index route⦄, n.routes[index]? = some route → n.indexOf route.id = .ok index

theorem isValid_iff : n.isValid = true ↔ n.routes.size = n.indexes.size ∧ n.FindsRoutes := by
  rw [isValid, Bool.and_eq_true, beq_iff_eq, List.all_eq_true]
  refine and_congr_right fun _ => ⟨fun h index route hroute => ?_, fun h r hr => ?_⟩
  · have hrecord := h ⟨index, route.id⟩ (mem_records_iff.mpr ⟨route, hroute, rfl⟩)
    exact indexOf_eq_ok_iff.mpr (beq_iff_eq.mp hrecord)
  · obtain ⟨route, hroute, hid⟩ := mem_records_iff.mp hr
    rw [beq_iff_eq, ← hid]
    exact indexOf_eq_ok_iff.mp (h hroute)

/-- There are as many names as routes where records told them. -/
theorem isValid_iff_of_ofRecords (h : ofRecords source records = .ok n) :
    n.isValid = true ↔ n.FindsRoutes := by
  obtain ⟨-, slots, indexes, -, hsize, rfl⟩ := ofRecords_eq_ok_iff.mp h
  rw [isValid_iff]
  exact and_iff_right hsize

/-- **A numbering that records tell is valid** if every route carries the name under which it was
found, and not otherwise. -/
theorem findsRoutes_iff_of_ofRecords (h : ofRecords source records = .ok n) : n.FindsRoutes ↔
    ∀ r ∈ records, ∀ route, source.find? r.route = some route → route.id = r.route := by
  have htells := tells_of_ofRecords h
  have haccepts := accepts_of_ofRecords h
  constructor
  · intro hfinds r hr route hroute
    obtain ⟨route', hroute', hat⟩ := htells.routeAt r hr
    obtain rfl := Option.some.inj (hroute.symm.trans hroute')
    have hrecord := (htells.indexOf_iff _ _).mp (hfinds (routeAt_eq_ok_iff.mp hat))
    exact congrArg IndexRecord.route (haccepts.eq_of_index_eq hrecord hr rfl)
  · intro hnames index route hroute
    have hlt : index < source.count := by
      rw [← haccepts.length_eq, ← htells.size_eq]
      exact (Array.getElem?_eq_some_iff.mp hroute).1
    obtain ⟨r, hr, rfl⟩ := haccepts.exists_mem_of_lt hlt
    obtain ⟨route', hroute', hat⟩ := htells.routeAt r hr
    obtain rfl := Option.some.inj (hroute.symm.trans (routeAt_eq_ok_iff.mp hat))
    rw [hnames r hr route hroute']
    exact (htells.indexOf_iff _ _).mpr hr

/-! ## The records of a built numbering -/

theorem length_records : n.records.length = n.size := by
  rw [records, List.length_map, List.length_zipIdx, Array.length_toList, size]

theorem map_index_records : n.records.map IndexRecord.index = List.range n.size := by
  have hindexes := List.zipIdx_map_snd 0 n.routes.toList
  rw [Array.length_toList, ← List.range_eq_range'] at hindexes
  rw [records, List.map_map]
  exact hindexes

theorem map_route_records : n.records.map IndexRecord.route = n.routes.toList.map Route.id := by
  have hroutes := congrArg (List.map Route.id) (List.zipIdx_map_fst 0 n.routes.toList)
  rw [List.map_map] at hroutes
  rw [records, List.map_map]
  exact hroutes

/-- Names are indexed in the order of the records. -/
theorem indexNames_eq_indexesAfter (next : Nat) (map : Std.TreeMap RouteId Nat)
    (routes : List Route) : indexNames next map routes =
      indexesAfter map ((routes.zipIdx next).map fun (route, index) => ⟨index, route.id⟩) := by
  induction routes generalizing next map with
  | nil => rfl
  | cons route routes ih => exact ih (next + 1) (map.insert route.id next)

section Built

variable (hn : build source = .ok n)
include hn

theorem perm_routes_of_build : n.routes.toList.Perm source.routes := by
  rw [eq_ofSorted_of_build hn]
  exact List.mergeSort_perm ..

theorem names_nodup_iff_of_build :
    (n.records.map IndexRecord.route).Nodup ↔ (source.routes.map Route.id).Nodup := by
  rw [map_route_records, ((perm_routes_of_build hn).map Route.id).nodup_iff]

theorem indexes_eq_of_build : n.indexes = indexesAfter ∅ n.records := by
  rw [eq_ofSorted_of_build hn]
  exact indexNames_eq_indexesAfter ..

/-- A built numbering has as many names as routes exactly if no two routes share a name. -/
theorem size_indexes_eq_iff_of_build :
    n.routes.size = n.indexes.size ↔ (source.routes.map Route.id).Nodup := by
  rw [indexes_eq_of_build hn, eq_comm, ← names_nodup_iff_of_build hn, ← size_indexesAfter_eq_iff,
    length_records, size]

/-- **A built numbering is valid** if no two routes share a name, and not otherwise. -/
theorem isValid_iff_nodup_of_build :
    n.isValid = true ↔ (source.routes.map Route.id).Nodup := by
  rw [isValid_iff, size_indexes_eq_iff_of_build hn]
  refine and_iff_left_of_imp fun hnodup index route hroute => ?_
  exact (indexOf_eq_ok_iff_of_nodup hn hnodup).mpr ⟨route, hroute, rfl⟩

/-- A source that answers from its list finds the routes that were numbered. -/
theorem find?_of_getElem?_routes (hsource : source.Faithful) {index : Nat} {route : Route}
    (hroute : n.routes[index]? = some route) : source.find? route.id = some route :=
  hsource.find?_eq ((mem_routes_of_build hn).mp ⟨index, hroute⟩)

/-- The records of a built numbering are accepted. -/
theorem accepts_records_of_build (hsource : source.Faithful) : Accepts source n.records := by
  have hcount : n.size = source.count := by
    rw [hsource.count_eq, ← (perm_routes_of_build hn).length_eq, Array.length_toList, size]
  refine ⟨length_records.trans hcount, fun r hr => ?_, ?_, ?_⟩
  · obtain ⟨route, hroute, hid⟩ := mem_records_iff.mp hr
    exact ⟨route, hid ▸ find?_of_getElem?_routes hn hsource hroute⟩
  · rw [map_index_records, hcount]
  · exact (names_nodup_iff_of_build hn).mpr hsource.nodup

/-- **The records of a numbering tell it.** -/
theorem ofRecords_records (hsource : source.Faithful) : ofRecords source n.records = .ok n := by
  obtain ⟨routes, hrecords, hlength, hroutes⟩ :=
    ofRecords_of_accepts (accepts_records_of_build hn hsource)
  have hsame : routes = n.routes.toList := by
    refine List.ext_getElem? fun index => ?_
    have hlist : n.routes.toList[index]? = n.routes[index]? := Array.getElem?_toList
    rw [hlist]
    cases hroute : n.routes[index]? with
    | some route =>
      have hrecord := hroutes ⟨index, route.id⟩ (mem_records_iff.mpr ⟨route, hroute, rfl⟩)
      rw [← hrecord, find?_of_getElem?_routes hn hsource hroute]
    | none =>
      rw [List.getElem?_eq_none_iff, hlength, length_records, size]
      exact Array.getElem?_eq_none_iff.mp hroute
  rw [hrecords, hsame, Array.toArray_toList, ← indexes_eq_of_build hn]

theorem size_le_of_build : n.size ≤ maxRoutes := by
  unfold build at hn
  split at hn
  · next hle =>
    cases hn
    rwa [size_ofSorted, List.length_mergeSort]
  · cases hn

end Built

/-- A numbering is built from a source or told by records. -/
def IsMade (n : Numbering) : Prop :=
  (∃ source, build source = .ok n) ∨
    ∃ source records, ofRecords source records = .ok n

theorem IsMade.apart (h : n.IsMade) : n.NamesApart := by
  rcases h with ⟨source, hbuild⟩ | ⟨source, records, hrecords⟩
  · exact (namesKept_of_build hbuild).apart
  · exact namesApart_of_ofRecords hrecords

/-- The records of a numbering are stored as they are, unless there are more indexes than sixteen
bits tell apart. -/
theorem map_narrowed_records (h : n.size ≤ UInt16.size) :
    n.records.map IndexRecord.narrowed = n.records := by
  refine (List.map_congr_left fun r hr => ?_).trans n.records.map_id
  obtain ⟨route, hroute, -⟩ := mem_records_iff.mp hr
  exact IndexRecord.narrowed_eq (Nat.lt_of_lt_of_le (Array.getElem?_eq_some_iff.mp hroute).1 h)

/-- **Records tell a numbering exactly if they are accepted**, and it is what they say; it is valid
exactly if every route carries the name that it was found under.  What a source that answers from
its list is numbered by is stored as it is, and told again. -/
theorem told_iff_accepted (source : RouteSource) :
    (∀ records, ((∃ n, ofRecords source records = .ok n) ↔ Accepts source records) ∧
      ∀ n, ofRecords source records = .ok n → n.Tells source records ∧
        (n.isValid = true ↔
          ∀ r ∈ records, ∀ route, source.find? r.route = some route → route.id = r.route)) ∧
    (source.Faithful → ∀ n, build source = .ok n →
      n.records.map IndexRecord.narrowed = n.records ∧ ofRecords source n.records = .ok n) := by
  refine ⟨fun records => ⟨exists_ofRecords_iff, fun n h => ⟨tells_of_ofRecords h, ?_⟩⟩,
    fun hsource n hn => ⟨map_narrowed_records ?_, ofRecords_records hn hsource⟩⟩
  · rw [isValid_iff_of_ofRecords h, findsRoutes_iff_of_ofRecords h]
  · exact Nat.le_trans (size_le_of_build hn) (by decide)

end Numbering

/-! ## A route that was renamed -/

namespace Renamed

open SampleCity

def first : Route := ⟨named "A", "first", .tram, year, .all⟩

def second : Route := ⟨named "B", "second", .tram, year, .all⟩

/-- The route that is now named `B` is still found under its old name. -/
def source : RouteSource where
  routes := [first, second]
  count := 2
  find? id := if id = named "OLD" then some second else [first, second].find? fun r => r.id = id

/-- Records that were stored under the old name. -/
def records : List IndexRecord :=
  [⟨1, named "OLD"⟩, ⟨0, named "A"⟩]

theorem accepts_records : Numbering.Accepts source records where
  length_eq := rfl
  found r hr := by
    rcases List.mem_pair.mp hr with rfl | rfl
    · exact ⟨second, rfl⟩
    · exact ⟨first, rfl⟩
  indexes_perm := by decide
  names_nodup := by decide

theorem faithful_source : source.Faithful where
  nodup := by decide
  count_eq := rfl
  find?_eq {r} hr := by
    rcases List.mem_pair.mp hr with rfl | rfl <;> rfl

/-- The old records are accepted, and leave the index with the old name, so that they are not valid;
the routes have the same indexes in a numbering of the new names, which its records tell. -/
theorem told_by_old_name :
    (∃ n, Numbering.ofRecords source records = .ok n ∧ n.indexOf (named "OLD") = .ok 1 ∧
      n.routeAt 1 = .ok second ∧ n.isValid = false) ∧
    ∃ n, Numbering.build source = .ok n ∧ n.routeAt 1 = .ok second ∧
      Numbering.ofRecords source n.records = .ok n := by
  obtain ⟨hrecords, hbuilt⟩ := Numbering.told_iff_accepted source
  constructor
  · obtain ⟨hexists, htold⟩ := hrecords records
    obtain ⟨n, hn⟩ := hexists.mpr accepts_records
    obtain ⟨htells, hvalid⟩ := htold n hn
    have hold : (⟨1, named "OLD"⟩ : IndexRecord) ∈ records := by decide
    obtain ⟨route, hroute, hat⟩ := htells.routeAt _ hold
    obtain rfl : second = route := Option.some.inj hroute
    refine ⟨n, hn, (htells.indexOf_iff _ _).mpr hold, hat, ?_⟩
    rw [← Bool.not_eq_true, hvalid]
    exact fun hnames => absurd (hnames _ hold second rfl) (by decide)
  · have hn : Numbering.build source = .ok (.ofSorted [first, second]) := by
      rw [Numbering.build_of_le (by decide), List.mergeSort_of_pairwise (by decide)]
      rfl
    exact ⟨_, hn, rfl, (hbuilt faithful_source _ hn).2⟩

end Renamed
end TransitChanges
