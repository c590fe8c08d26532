import Mathlib.Data.List.Sort
import TransitChanges.Proofs.Restoring
import TransitChanges.Proofs.Sorting

/-!
# The records of intermediate routes

Intermediate routes are kept in a map, and their records are sorted by degree, first and second
route.  The map has one entry for each of these, so whatever order it is gone through in, the sorted
list is the same.  An entry without any route is recorded like the others.

Records that are read may come in any order and tell a connection twice.  The last record of a
connection counts, and its routes are listed in their order when it is recorded again.

* `mergeSort_eq_records`: the order in which the map is gone through.
* `exists_told_of_inRange`: no entry is lost.
* `mem_records_iff_of_ofRecords`: what is recorded of what was told.
* `vias_recorded_and_told`: both ways together.
-/

namespace TransitChanges

open Bits

/-- A record comes before another: by degree, then by first route, then by second. -/
def ViaRecord.Precedes (r s : ViaRecord) : Prop :=
  r.degree < s.degree ∨ r.degree = s.degree ∧
    (r.first < s.first ∨ r.first = s.first ∧ r.second < s.second)

/-- The order of records as a test, for sorting. -/
def ViaRecord.le (r s : ViaRecord) : Bool :=
  (compare r.connection s.connection).isLE

theorem ViaRecord.compare_eq_lt_iff {r s : ViaRecord} :
    compare r.connection s.connection = .lt ↔ r.Precedes s := by
  rw [Connection.compare_eq_lt_iff, RoutePair.compare_eq_lt_iff]
  rfl

namespace Vias

variable {v : Vias} {t : Degrees} {size : Nat} {records : List ViaRecord}

/-- Intermediate routes are built from degrees as large as their numbering, which all degrees are
that were built or restored, or told by records. -/
def IsMade (v : Vias) : Prop :=
  (∃ shared t, t.Squares ∧ v = build shared t) ∨ ∃ size records, ofRecords size records = .ok v

theorem IsMade.inRange (h : v.IsMade) : v.InRange := by
  rcases h with ⟨shared, t, ht, rfl⟩ | ⟨size, records, hrecords⟩
  · exact inRange_build shared ht
  · exact (inRange_of_ofRecords hrecords).2

/-! ## The sorted list -/

theorem mem_records_iff {r : ViaRecord} :
    r ∈ v.records ↔ ∃ vias, v.routes[r.connection]? = some vias ∧ r.vias = vias.toList := by
  simp only [records_eq_map, List.mem_map, ← Std.TreeMap.mem_toList_iff_getElem?_eq_some]
  constructor
  · rintro ⟨⟨c, vias⟩, hentry, rfl⟩
    exact ⟨vias, hentry, rfl⟩
  · rintro ⟨vias, hentry, hvias⟩
    refine ⟨(r.connection, vias), hentry, ?_⟩
    rw [recordOf, ← hvias]
    rfl

/-- Records are in their order, so that each connection has one at most. -/
theorem pairwise_records (v : Vias) : v.records.Pairwise ViaRecord.Precedes := by
  rw [records_eq_map, List.pairwise_map]
  exact Std.TreeMap.ordered_keys_toList.imp fun hlt => ViaRecord.compare_eq_lt_iff.mp hlt

theorem pairwise_vias_of_mem_records {r : ViaRecord} (hr : r ∈ v.records) :
    r.vias.Pairwise (· < ·) := by
  obtain ⟨vias, -, hvias⟩ := mem_records_iff.mp hr
  rw [hvias]
  exact vias.pairwise_toList

/-- **In whatever order the entries come**, their records are sorted into the same list. -/
theorem mergeSort_eq_records {entries : List (Connection × Bitmap)}
    (hperm : entries.Perm v.routes.toList) :
    (entries.map recordOf).mergeSort ViaRecord.le = v.records := by
  have hsorted : v.records.mergeSort ViaRecord.le = v.records := by
    refine List.mergeSort_of_pairwise ((pairwise_records v).imp fun h => ?_)
    rw [ViaRecord.le, ViaRecord.compare_eq_lt_iff.mpr h]
    rfl
  have hrecords : (entries.map recordOf).Perm v.records := hperm.map recordOf
  refine (mergeSort_eq_of_perm (compareOn ViaRecord.connection) (fun _ _ => rfl) hrecords
    fun r hr s hs heq => ?_).trans hsorted
  -- records that are equal in rank are about one connection, and so about one entry
  have hsame : r.connection = s.connection := Std.LawfulEqOrd.eq_of_compare heq
  obtain ⟨vias, hvias, hr⟩ := mem_records_iff.mp (hrecords.mem_iff.mp hr)
  obtain ⟨vias', hvias', hs⟩ := mem_records_iff.mp (hrecords.mem_iff.mp hs)
  rw [hsame] at hvias
  obtain rfl := Option.some.inj (hvias.symm.trans hvias')
  cases r
  cases s
  cases hsame
  cases hr.trans hs.symm
  rfl

/-- The records of intermediate routes are stored as they are, unless there are more routes than
sixteen bits tell apart.  A numbering that is built has no more (`Numbering.size_le_of_build`). -/
theorem map_narrowed_records (h : v.InRange) (hsize : v.size ≤ UInt16.size) :
    v.records.map ViaRecord.narrowed = v.records := by
  refine (List.map_congr_left fun r hr => ?_).trans v.records.map_id
  obtain ⟨entry, hentry, rfl⟩ := List.mem_map.mp (records_eq_map v ▸ hr)
  obtain ⟨-, hdegree, hfirst, hsecond, hvias⟩ := fits_iff.mp (h hentry).2
  have hdegrees : maxDegree < UInt8.size := by decide
  exact ViaRecord.narrowed_eq (by omega) (by omega) (by omega) fun via hvia =>
    Nat.lt_of_lt_of_le (hvias via hvia) hsize

/-! ## What records tell -/

/-- **No entry is lost**, those without a route included. -/
theorem exists_told_of_inRange (h : v.InRange) : ∃ v', ofRecords v.size v.records = .ok v' ∧
    v'.size = v.size ∧ ∀ c : Connection, v'.routes[c]? = v.routes[c]? := by
  refine ⟨_, ofRecords_records_of_inRange h, rfl, fun c => Option.ext fun vias => ?_⟩
  rw [getElem?_ofList_iff Std.TreeMap.ordered_keys_toList,
    Std.TreeMap.mem_toList_iff_getElem?_eq_some]

/-- Records are accepted if all of them fit, and refused otherwise. -/
theorem exists_ofRecords_iff : (∃ v, ofRecords size records = .ok v) ↔
    ∀ r ∈ records, fits size r = true :=
  ⟨fun h => (ofRecords_eq_ok_iff.mp h.choose_spec).1,
    fun hfits => ⟨_, ofRecords_eq_ok_iff.mpr ⟨hfits, rfl⟩⟩⟩

/-- **What is recorded is what the last record of each connection says**, with its routes in
order. -/
theorem mem_records_iff_of_ofRecords (hv : ofRecords size records = .ok v) {r : ViaRecord} :
    r ∈ v.records ↔ r.vias.Pairwise (· < ·) ∧ ∃ last,
      records.findRev? (fun s => s.connection = r.connection) = some last ∧
        ∀ via, via ∈ r.vias ↔ via ∈ last.vias := by
  have hvias {last : ViaRecord}
      (hlast : records.findRev? (fun s => s.connection = r.connection) = some last) (via : Nat) :
      via ∈ (Bitmap.ofList size last.vias).toList ↔ via ∈ last.vias := by
    rw [Bitmap.mem_toList, Bitmap.get_ofList, Bool.and_eq_true, decide_eq_true_eq,
      List.contains_iff_mem]
    refine and_iff_right_of_imp fun hvia => ?_
    have hfits := (ofRecords_eq_ok_iff.mp hv).1 last (of_findRev?_eq_some hlast).1
    obtain ⟨-, -, -, -, hlt⟩ := fits_iff.mp hfits
    exact hlt via hvia
  rw [mem_records_iff, getElem?_of_ofRecords hv]
  simp only [Option.map_eq_some_iff]
  constructor
  · rintro ⟨-, ⟨last, hlast, rfl⟩, heq⟩
    rw [heq]
    exact ⟨Bitmap.pairwise_toList _, last, hlast, hvias hlast⟩
  · rintro ⟨hascending, last, hlast, hsame⟩
    have hlists := Bitmap.pairwise_toList (Bitmap.ofList size last.vias)
    refine ⟨_, ⟨last, hlast, rfl⟩, hascending.eq_of_mem_iff hlists fun via => ?_⟩
    rw [hsame, hvias hlast]

/-- **Intermediate routes and their records.**  What is recorded is sorted, does not depend on the
order in which the map is gone through, is stored as it is, and tells every entry again.  Records
are accepted if every number in them is in range, and then the last record of each connection is
what is recorded again. -/
theorem vias_recorded_and_told :
    (∀ v : Vias, v.IsMade →
      (∃ v', ofRecords v.size v.records = .ok v' ∧ v'.size = v.size ∧
        ∀ c : Connection, v'.routes[c]? = v.routes[c]?) ∧
      v.records.Pairwise ViaRecord.Precedes ∧
      (∀ r ∈ v.records, r.vias.Pairwise (· < ·)) ∧
      (∀ entries : List (Connection × Bitmap), entries.Perm v.routes.toList →
        (entries.map recordOf).mergeSort ViaRecord.le = v.records) ∧
      (v.size ≤ UInt16.size → v.records.map ViaRecord.narrowed = v.records)) ∧
    ∀ size records,
      ((∃ v, ofRecords size records = .ok v) ↔ ∀ r ∈ records, 2 ≤ r.degree ∧ r.degree ≤ maxDegree ∧
        r.first < size ∧ r.second < size ∧ ∀ via ∈ r.vias, via < size) ∧
      ∀ v, ofRecords size records = .ok v → v.size = size ∧ v.IsMade ∧
        ∀ r, r ∈ v.records ↔ r.vias.Pairwise (· < ·) ∧ ∃ last,
          records.findRev? (fun s => s.connection = r.connection) = some last ∧
            ∀ via, via ∈ r.vias ↔ via ∈ last.vias := by
  refine ⟨fun v hv => ⟨exists_told_of_inRange hv.inRange, pairwise_records v,
    fun r hr => pairwise_vias_of_mem_records hr, fun entries hperm => mergeSort_eq_records hperm,
    map_narrowed_records hv.inRange⟩, fun size records => ⟨?_, fun v hv => ?_⟩⟩
  · simp only [exists_ofRecords_iff, fits_iff]
  · exact ⟨(inRange_of_ofRecords hv).1, .inr ⟨size, records, hv⟩,
      fun r => mem_records_iff_of_ofRecords hv⟩

end Vias

namespace ToldTwice

/-- Records out of order.  Two connections are told twice, and one of them is left without a route.
-/
def vias : List ViaRecord :=
  [⟨3, 1, 0, [2, 2]⟩, ⟨2, 0, 1, [3]⟩, ⟨2, 0, 1, []⟩, ⟨3, 1, 0, [3, 2, 3]⟩, ⟨2, 3, 0, [1]⟩]

/-- The last records count, and are recorded again in order, the one without a route included. -/
theorem recorded_in_order : ∃ v, Vias.ofRecords 4 vias = .ok v ∧
    v.records = [⟨2, 0, 1, []⟩, ⟨2, 3, 0, [1]⟩, ⟨3, 1, 0, [2, 3]⟩] ∧
    (v.routes.toList.reverse.map Vias.recordOf).mergeSort ViaRecord.le = v.records ∧
    v.records.map ViaRecord.narrowed = v.records ∧
    ∃ v', Vias.ofRecords v.size v.records = .ok v' ∧
      v'.routes[(⟨2, 0, 1⟩ : Connection)]?.isSome := by
  obtain ⟨hrecorded, htold⟩ := Vias.vias_recorded_and_told
  obtain ⟨haccepted, hresult⟩ := htold 4 vias
  obtain ⟨v, hv⟩ := haccepted.mpr (by decide)
  obtain ⟨hsize, hmade, -⟩ := hresult v hv
  obtain ⟨⟨v', hv', -, hentries⟩, -, -, hsorted, hnarrowed⟩ := hrecorded v hmade
  have hrecords : (Vias.ofRecords 4 vias).map (fun v =>
      (v.records, v.routes[(⟨2, 0, 1⟩ : Connection)]?.isSome)) =
        .ok ([⟨2, 0, 1, []⟩, ⟨2, 3, 0, [1]⟩, ⟨3, 1, 0, [2, 3]⟩], true) := rfl
  rw [hv] at hrecords
  obtain ⟨hlist, hkept⟩ := Prod.mk.inj (Except.ok.inj hrecords)
  refine ⟨v, hv, hlist, hsorted _ (List.reverse_perm _), hnarrowed ?_, v', hv', ?_⟩
  · rw [hsize]
    decide
  · rw [hentries]
    exact hkept

end ToldTwice
end TransitChanges
