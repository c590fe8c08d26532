import TransitChanges.Proofs.BitSets
import TransitChanges.Proofs.NetworkRoutes
import TransitChanges.Proofs.NumberingRecords
import TransitChanges.Session

/-!
# Records tell the tables

A table is stored as a list of records and read back with its own checks.  What was built passes the
checks and is read back as it was: a numbering of distinct names is valid, every row of a degree is
stored where it is not empty, and the intermediate routes are listed in the order of their
connections.

The degrees and the intermediate routes refer to routes by index alone, so their records are read
back with any numbering of the right size.

* `Numbering.restoreNumbering_records`, `Degrees.ofRecords_records`, `Vias.ofRecords_records`: the
  three tables.
* `Degrees.squares_of_build`: built matrices are as large as the numbering, in rows and columns.
-/

namespace TransitChanges

open Bits

theorem Network.faithful_source {net : Network} (h : net.Known) : net.source.Faithful where
  nodup := nodup_source h
  count_eq := (length_source net).symm
  find?_eq hr := (mem_source_iff h).mp hr

namespace Numbering

variable {source : RouteSource} {n : Numbering}

/-- **The records of a numbering tell it**, and it is valid. -/
theorem restoreNumbering_records (hsource : source.Faithful) (hn : build source = .ok n) :
    Session.restoreNumbering source n.records = .ok n := by
  rw [Session.restoreNumbering, ofRecords_records hn hsource]
  exact if_pos ((isValid_iff_nodup_of_build hn).mpr hsource.nodup)

end Numbering

namespace Degrees

variable {n : Numbering} {interchanges : List Interchange} {t : Degrees} {size : Nat}

/-! ## Square matrices -/

/-- The matrices of the degrees are as large as the numbering. -/
def Squares (t : Degrees) : Prop :=
  ∀ m ∈ t.levels, m.size = t.size ∧ m.IsSquare

theorem isSquare_next {shared direct last reached : BitMatrix} (h : direct.IsSquare) :
    (next shared direct last reached).IsSquare := by
  have hfold (vias : List Nat) {row : Bitmap} (hrow : row.size = direct.size) :
      (vias.foldl (fun row via => row.or (direct.row via)) row).size = direct.size := by
    induction vias generalizing row with
    | nil => exact hrow
    | cons via vias ih =>
      refine ih ?_
      change max row.size (direct.row via).size = direct.size
      by_cases hvia : via < direct.size
      · rw [hrow, h via hvia, Nat.max_self]
      · rw [BitMatrix.row_of_size_le (Nat.le_of_not_lt hvia), hrow]
        exact Nat.max_eq_left (Nat.zero_le _)
  exact BitMatrix.isSquare_ofRows fun i _ => hfold _ rfl

theorem isSquare_of_mem_rounds {shared direct : BitMatrix} (h : direct.IsSquare) {k total : Nat}
    {last reached m : BitMatrix} (hm : m ∈ rounds shared direct k last reached total) :
    m.size = direct.size ∧ m.IsSquare := by
  induction k generalizing last reached total with
  | zero => cases hm
  | succ k ih =>
    unfold rounds at hm
    dsimp only at hm
    split at hm
    · rw [List.eq_of_mem_replicate hm]
      exact ⟨rfl, BitMatrix.isSquare_empty _⟩
    · rcases List.mem_cons.mp hm with rfl | hm
      · exact ⟨rfl, isSquare_next h⟩
      · exact ih hm

theorem squares_of_build {shared : BitMatrix} (ht : build n shared interchanges = .ok t) :
    t.Squares := by
  simp only [build, Fault.bind_eq_ok_iff] at ht
  obtain ⟨changes, -, ht⟩ := ht
  cases ht
  intro m hm
  rcases List.mem_cons.mp hm with rfl | hm
  · exact ⟨BitMatrix.size_ofPositions .., BitMatrix.isSquare_ofPositions _ _⟩
  · obtain ⟨hm, hsquare⟩ := isSquare_of_mem_rounds (BitMatrix.isSquare_ofPositions _ _) hm
    exact ⟨hm.trans (BitMatrix.size_ofPositions ..), hsquare⟩

theorem Squares.level (h : t.Squares) (d : Nat) :
    (t.level d).size = t.size ∧ (t.level d).IsSquare := by
  unfold Degrees.level
  split
  · next m hm => exact h m (List.mem_of_getElem? hm)
  · exact ⟨rfl, BitMatrix.isSquare_empty _⟩

/-- Square matrices hold numbered routes only. -/
theorem Squares.lt_of_isAt (h : t.Squares) {d : Nat} {pair : RoutePair}
    (hat : t.isAt d pair = true) : pair.first < t.size ∧ pair.second < t.size := by
  obtain ⟨hsize, hsquare⟩ := h.level d
  have hfirst : pair.first < (t.level d).size := BitMatrix.lt_size_of_get hat
  refine ⟨hsize ▸ hfirst, ?_⟩
  rw [← hsize, ← hsquare _ hfirst]
  exact Bitmap.lt_size_of_get hat

/-! ## Rows that are stored -/

/-- A row of one of some matrices. -/
def rowAt (levels : List BitMatrix) (level route : Nat) : Option Bitmap :=
  levels[level]?.bind fun m => m.row? route

theorem rowAt_store (levels : List BitMatrix) (r : DegreeRecord) (level route : Nat) :
    rowAt (store size levels r) level route =
      if r.level = level ∧ r.route = route then
        (rowAt levels level route).map fun _ => .ofList size r.reached
      else rowAt levels level route := by
  rw [rowAt, rowAt, store, List.getElem?_modify]
  cases levels[level]? with
  | none => simp
  | some m =>
    by_cases hlevel : r.level = level
    · by_cases hroute : r.route = route <;>
        simp [hlevel, hroute, BitMatrix.row?, BitMatrix.modifyRow, Array.getElem?_modify]
    · simp [hlevel]

/-- A row after records is that of the last of them that is about it. -/
theorem rowAt_foldl_store (levels : List BitMatrix) (records : List DegreeRecord)
    (level route : Nat) : rowAt (records.foldl (store size) levels) level route =
      (rowAt levels level route).map fun row =>
        ((records.findRev? fun r => r.level = level ∧ r.route = route).map fun r =>
          Bitmap.ofList size r.reached).getD row := by
  induction records generalizing levels with
  | nil => simp
  | cons r records ih =>
    rw [List.foldl_cons, ih, rowAt_store, List.findRev?]
    cases records.findRev? fun r => r.level = level ∧ r.route = route with
    | some last => split <;> cases rowAt levels level route <;> rfl
    | none =>
      by_cases hkey : r.level = level ∧ r.route = route <;>
        cases rowAt levels level route <;> simp [hkey]

theorem fits_iff {r : DegreeRecord} : fits size r = true ↔
    r.level < maxDegree ∧ r.route < size ∧ ∀ i ∈ r.reached, i < size := by
  simp only [fits, Bool.and_eq_true, decide_eq_true_eq, List.all_eq_true, and_assoc]

/-- Records are stored if all of them fit, and refused otherwise. -/
theorem storeAll_eq_ok_iff {levels result : List BitMatrix} {records : List DegreeRecord} :
    storeAll size levels records = .ok result ↔
      (∀ r ∈ records, fits size r = true) ∧ result = records.foldl (store size) levels := by
  induction records generalizing levels with
  | nil =>
    rw [storeAll, and_iff_right (List.forall_mem_nil _)]
    exact ⟨fun h => (Except.ok.inj h).symm, fun h => congrArg _ h.symm⟩
  | cons r records ih =>
    rw [storeAll, List.forall_mem_cons, List.foldl_cons]
    split
    · next hfits => rw [ih, and_iff_right hfits]
    · next hfits => simp [hfits]

theorem eq_of_rowAt {a b : List BitMatrix} (hlength : a.length = b.length)
    (h : ∀ level route, rowAt a level route = rowAt b level route) : a = b := by
  refine List.ext_getElem hlength fun level ha hb => BitMatrix.ext_row? fun route => ?_
  have hrow := h level route
  rwa [rowAt, rowAt, List.getElem?_eq_getElem ha, List.getElem?_eq_getElem hb] at hrow

/-- The matrices that are stored on start without a bit. -/
theorem rowAt_replicate {level route : Nat} (hlevel : level < maxDegree) :
    rowAt (List.replicate maxDegree (.empty size)) level route =
      if route < size then some (Bitmap.empty size) else none := by
  rw [rowAt, List.getElem?_replicate, if_pos hlevel, Option.bind_some, BitMatrix.empty,
    BitMatrix.row?_ofRows]

theorem ofRecords_eq_ok_iff {records : List DegreeRecord} : ofRecords n records = .ok t ↔
    (∀ r ∈ records, fits n.size r = true) ∧ t.numbering = n ∧
      t.levels = records.foldl (store n.size) (List.replicate maxDegree (.empty n.size)) := by
  constructor
  · intro h
    unfold ofRecords at h
    split at h
    · next levels hlevels =>
      cases h
      obtain ⟨hfits, hresult⟩ := storeAll_eq_ok_iff.mp hlevels
      exact ⟨hfits, rfl, hresult⟩
    · cases h
  · rintro ⟨hfits, rfl, hlevels⟩
    have hstored := storeAll_eq_ok_iff.mpr ⟨hfits, hlevels⟩
    unfold ofRecords
    split
    · next levels hresult =>
      obtain rfl := Except.ok.inj (hresult.symm.trans hstored)
      rfl
    · next fault hfault => cases hfault.symm.trans hstored

theorem mem_records_iff {r : DegreeRecord} : r ∈ t.records ↔
    ∃ m, t.levels[r.level]? = some m ∧ r.route < m.size ∧ (m.row r.route).isEmpty = false ∧
      r.reached = (m.row r.route).toList := by
  simp only [records, List.mem_flatMap, Prod.exists, List.mem_zipIdx_iff_getElem?,
    List.mem_filterMap, List.mem_range]
  constructor
  · rintro ⟨m, level, hm, route, hroute, hr⟩
    split at hr
    · cases hr
    · next hsome =>
      cases hr
      exact ⟨m, hm, hroute, by simpa using hsome, rfl⟩
  · rintro ⟨m, hm, hroute, hsome, hreached⟩
    refine ⟨m, r.level, hm, r.route, hroute, ?_⟩
    rw [if_neg (by simp [hsome]), ← hreached]

theorem fits_of_mem_records (h : t.Squares) {r : DegreeRecord} (hr : r ∈ t.records) :
    fits t.size r = true := by
  obtain ⟨m, hm, hroute, -, hreached⟩ := mem_records_iff.mp hr
  obtain ⟨hsize, hsquare⟩ := h m (List.mem_of_getElem? hm)
  have hlevel : r.level < maxDegree := by
    rw [← t.length_levels]
    exact (List.getElem?_eq_some_iff.mp hm).1
  refine fits_iff.mpr ⟨hlevel, hsize ▸ hroute, fun via hvia => ?_⟩
  rw [hreached, Bitmap.mem_toList] at hvia
  rw [← hsize, ← hsquare _ hroute]
  exact Bitmap.lt_size_of_get hvia

theorem rowAt_of_mem_records (h : t.Squares) {r : DegreeRecord} (hr : r ∈ t.records) :
    rowAt t.levels r.level r.route = some (.ofList t.size r.reached) := by
  obtain ⟨m, hm, hroute, -, hreached⟩ := mem_records_iff.mp hr
  obtain ⟨hsize, hsquare⟩ := h m (List.mem_of_getElem? hm)
  rw [rowAt, hm, Option.bind_some, BitMatrix.row?_of_lt hroute, hreached, ← hsize,
    ← hsquare _ hroute, Bitmap.ofList_toList]

/-- A row that no record is about is empty, as it is on start. -/
theorem rowAt_of_forall_mem_records (h : t.Squares) {level route : Nat}
    (hnone : ∀ r ∈ t.records, ¬ (r.level = level ∧ r.route = route)) :
    rowAt (List.replicate maxDegree (.empty t.size)) level route = rowAt t.levels level route := by
  by_cases hlevel : level < maxDegree
  · obtain ⟨m, hm⟩ : ∃ m, t.levels[level]? = some m :=
      ⟨_, List.getElem?_eq_getElem (by rwa [t.length_levels])⟩
    obtain ⟨hsize, hsquare⟩ := h m (List.mem_of_getElem? hm)
    rw [rowAt_replicate hlevel, rowAt, hm, Option.bind_some]
    by_cases hroute : route < m.size
    · rw [if_pos (hsize ▸ hroute), BitMatrix.row?_of_lt hroute]
      have hempty : (m.row route).isEmpty = true := by
        rw [← Bool.not_eq_false]
        exact fun hsome => hnone ⟨level, route, (m.row route).toList⟩
          (mem_records_iff.mpr ⟨m, hm, hroute, hsome, rfl⟩) ⟨rfl, rfl⟩
      refine congrArg some (Bitmap.ext_get ?_ fun i => ?_)
      · rw [hsquare route hroute, hsize]
        rfl
      · rw [Bitmap.get_empty, Bitmap.isEmpty_iff.mp hempty i]
    · rw [if_neg (hsize ▸ hroute), BitMatrix.row?,
        Array.getElem?_eq_none (by rw [m.size_rows]; omega)]
  · rw [rowAt, rowAt, List.getElem?_eq_none (by simpa using hlevel),
      List.getElem?_eq_none (by rw [t.length_levels]; omega)]

/-- The rows that the records of a table tell are its rows. -/
theorem rowAt_foldl_store_records (h : t.Squares) (level route : Nat) :
    rowAt (t.records.foldl (store t.size) (List.replicate maxDegree (.empty t.size))) level route =
      rowAt t.levels level route := by
  rw [rowAt_foldl_store]
  -- the last record of a row is one of the row that is there
  cases hlast : t.records.findRev? fun r => r.level = level ∧ r.route = route with
  | some r =>
    obtain ⟨hr, hkey⟩ := of_findRev?_eq_some hlast
    obtain ⟨rfl, rfl⟩ := of_decide_eq_true hkey
    obtain ⟨hlevel, hroute, -⟩ := fits_iff.mp (fits_of_mem_records h hr)
    rw [rowAt_replicate hlevel, if_pos hroute, rowAt_of_mem_records h hr]
    rfl
  | none =>
    rw [rowAt_of_forall_mem_records h fun r hr hkey => ?_]
    · exact Option.map_id'
    · obtain ⟨last, hsome⟩ :
          ∃ last, t.records.findRev? (fun r => r.level = level ∧ r.route = route) = some last :=
        exists_findRev?_iff.mpr ⟨r, hr, decide_eq_true hkey⟩
      cases hsome.symm.trans hlast

/-- **The records of the degrees tell them**, for any numbering of as many routes. -/
theorem ofRecords_records (h : t.Squares) (hn : n.size = t.size) :
    ofRecords n t.records = .ok ⟨n, t.levels, t.length_levels⟩ := by
  have hstored : storeAll t.size (List.replicate maxDegree (.empty t.size)) t.records = .ok _ :=
    storeAll_eq_ok_iff.mpr ⟨fun r hr => fits_of_mem_records h hr, rfl⟩
  refine ofRecords_eq_ok_iff.mpr ⟨hn ▸ fun r hr => fits_of_mem_records h hr, rfl, ?_⟩
  rw [hn]
  refine eq_of_rowAt ?_ fun level route => (rowAt_foldl_store_records h level route).symm
  rw [length_storeAll hstored, List.length_replicate, t.length_levels]

end Degrees

/-- The connection that a record is about. -/
def ViaRecord.connection (r : ViaRecord) : Connection :=
  ⟨r.degree, r.first, r.second⟩

namespace Vias

variable {t : Degrees} {size : Nat} {v : Vias} {records : List ViaRecord}

/-- The record of an entry. -/
def recordOf (entry : Connection × Bitmap) : ViaRecord :=
  ⟨entry.1.degree, entry.1.pair.first, entry.1.pair.second, entry.2.toList⟩

theorem records_eq_map (v : Vias) : v.records = v.routes.toList.map recordOf :=
  rfl

/-- Records are stored if all of them fit, and refused otherwise. -/
theorem storeAll_eq_ok_iff {routes result : Std.TreeMap Connection Bitmap} :
    storeAll size routes records = .ok result ↔ (∀ r ∈ records, fits size r = true) ∧
      result = records.foldl (fun routes r =>
        routes.insert r.connection (.ofList size r.vias)) routes := by
  induction records generalizing routes with
  | nil =>
    rw [storeAll, and_iff_right (List.forall_mem_nil _)]
    exact ⟨fun h => (Except.ok.inj h).symm, fun h => congrArg _ h.symm⟩
  | cons r records ih =>
    rw [storeAll, List.forall_mem_cons, List.foldl_cons]
    split
    · next hfits =>
      rw [ih, and_iff_right hfits]
      rfl
    · next hfits => simp [hfits]

theorem ofRecords_eq_ok_iff : ofRecords size records = .ok v ↔
    (∀ r ∈ records, fits size r = true) ∧ v = ⟨size, records.foldl (fun routes r =>
      routes.insert r.connection (.ofList size r.vias)) ∅⟩ := by
  simp only [ofRecords, Fault.bind_eq_ok_iff, storeAll_eq_ok_iff]
  constructor
  · rintro ⟨routes, ⟨hfits, rfl⟩, h⟩
    exact ⟨hfits, (Except.ok.inj h).symm⟩
  · rintro ⟨hfits, rfl⟩
    exact ⟨_, ⟨hfits, rfl⟩, rfl⟩

/-- **Under a connection stands its last record**, if it has any. -/
theorem getElem?_of_ofRecords (h : ofRecords size records = .ok v) (c : Connection) :
    v.routes[c]? = (records.findRev? fun r => r.connection = c).map fun r =>
      Bitmap.ofList size r.vias := by
  obtain ⟨-, rfl⟩ := ofRecords_eq_ok_iff.mp h
  rw [getElem?_foldl_insert ViaRecord.connection, Std.TreeMap.getElem?_emptyc, Option.or_none]

/-- The connections and the routes between them are numbered. -/
def InRange (v : Vias) : Prop :=
  ∀ ⦃entry⦄, entry ∈ v.routes.toList →
    entry.2.size = v.size ∧ fits v.size (recordOf entry) = true

/-- Records that are accepted tell of numbered routes only. -/
theorem inRange_of_ofRecords (h : ofRecords size records = .ok v) : v.size = size ∧ v.InRange := by
  have hsize : v.size = size := by rw [(ofRecords_eq_ok_iff.mp h).2]
  refine ⟨hsize, ?_⟩
  rintro ⟨c, vias⟩ hentry
  rw [Std.TreeMap.mem_toList_iff_getElem?_eq_some, getElem?_of_ofRecords h,
    Option.map_eq_some_iff] at hentry
  obtain ⟨r, hlast, rfl⟩ := hentry
  obtain ⟨hr, hkey⟩ := of_findRev?_eq_some hlast
  obtain rfl : r.connection = c := of_decide_eq_true hkey
  obtain ⟨hpos, hle, hfirst, hsecond, -⟩ := fits_iff.mp ((ofRecords_eq_ok_iff.mp h).1 r hr)
  rw [hsize, Bitmap.size_ofList]
  refine ⟨rfl, fits_iff.mpr ⟨hpos, hle, hfirst, hsecond, fun via hvia => ?_⟩⟩
  have hlt := Bitmap.lt_size_of_get (Bitmap.mem_toList.mp hvia)
  rwa [Bitmap.size_ofList] at hlt

/-- Records tell the entries that they were made of, in a map of their own. -/
theorem ofRecords_records_of_inRange (h : v.InRange) :
    ofRecords v.size v.records = .ok ⟨v.size, .ofList v.routes.toList⟩ := by
  rw [records_eq_map]
  refine ofRecords_eq_ok_iff.mpr ⟨fun r hr => ?_, ?_⟩
  · obtain ⟨entry, hentry, rfl⟩ := List.mem_map.mp hr
    exact (h hentry).2
  · rw [ofList_eq_foldl_insert, List.foldl_map]
    refine congrArg (Vias.mk v.size) (List.foldl_ext _ _ _ fun map entry hentry => ?_)
    rw [recordOf, ← (h hentry).1, Bitmap.ofList_toList]
    rfl

theorem toList_routes_build (shared : BitMatrix) (t : Degrees) :
    (build shared t).routes.toList = degrees.flatMap (entriesAt shared (origins shared t) t) :=
  toList_ofList (pairwise_entries shared _ t)

/-- An entry is about routes that are numbered. -/
theorem fits_of_mem_entries {shared : BitMatrix} (h : t.Squares) {c : Connection} {vias : Bitmap}
    (hentry : (c, vias) ∈ degrees.flatMap (entriesAt shared (origins shared t) t)) :
    vias.size = t.size ∧ fits t.size (recordOf (c, vias)) = true := by
  obtain ⟨d, hd, hentry⟩ := List.mem_flatMap.mp hentry
  obtain ⟨rfl, hat, hvias, -⟩ := mem_entriesAt.mp hentry
  obtain ⟨hpos, hle⟩ := mem_degrees.mp hd
  obtain ⟨hsize, hsquare⟩ := h.level (c.degree - 1)
  obtain ⟨hfirst, hsecond⟩ := h.lt_of_isAt hat
  have hwidth : vias.size = t.size := by
    rw [hvias, between, nearer, BitMatrix.inter, BitMatrix.row_ofRows (hsize ▸ hfirst)]
    change ((t.level (c.degree - 1)).row c.pair.first).size = t.size
    rw [hsquare _ (hsize ▸ hfirst), hsize]
  refine ⟨hwidth, fits_iff.mpr ⟨hpos, hle, hfirst, hsecond, fun via hvia => ?_⟩⟩
  rw [← hwidth]
  exact Bitmap.lt_size_of_get (Bitmap.mem_toList.mp hvia)

theorem inRange_build (shared : BitMatrix) (h : t.Squares) : (build shared t).InRange := by
  intro entry hentry
  rw [toList_routes_build] at hentry
  exact fits_of_mem_entries h hentry

theorem fits_of_mem_records {shared : BitMatrix} (h : t.Squares) {r : ViaRecord}
    (hr : r ∈ (build shared t).records) : fits t.size r = true := by
  obtain ⟨entry, hentry, rfl⟩ := List.mem_map.mp (records_eq_map (build shared t) ▸ hr)
  exact (inRange_build shared h hentry).2

/-- **The records of intermediate routes tell them.** -/
theorem ofRecords_records {shared : BitMatrix} (h : t.Squares) :
    ofRecords t.size (build shared t).records = .ok (build shared t) := by
  have hrecords := ofRecords_records_of_inRange (inRange_build shared h)
  rwa [toList_routes_build] at hrecords

end Vias
end TransitChanges
