import Mathlib.Data.List.Sort
import TransitChanges.Proofs.RestoredTables

/-!
# The records of degrees

Degrees are recorded row by row.  A row that leads nowhere is left out, so what is recorded is told
by the degrees alone: there is one list in the order of the rows with a record for every row that
leads somewhere (`Degrees.Lists`).

Records that are read need not be such a list.  They may come in any order, say twice where a row
leads, or say that it leads nowhere.  The last record of a row counts, and the list is made anew
when the degrees are recorded again.

* `Lists.unique`, `lists_records`: the one list of records.
* `get_level_iff_of_ofRecords`: what accepted records tell.
* `rows_recorded_and_told`: both ways together.
-/

namespace TransitChanges

open Bits

namespace Degrees

variable {n : Numbering} {t : Degrees} {records others : List DegreeRecord}

/-! ## The list of records -/

/-- Records list the degrees: each row that leads anywhere once, with the routes that it leads to,
all in their order. -/
structure Lists (t : Degrees) (records : List DegreeRecord) : Prop where
  ascending : records.Pairwise fun r s => r.level < s.level ∨ r.level = s.level ∧ r.route < s.route
  reached_ne {r : DegreeRecord} : r ∈ records → r.reached ≠ []
  reached_ascending {r : DegreeRecord} : r ∈ records → r.reached.Pairwise (· < ·)
  get_iff (level route i : Nat) : (t.level (level + 1)).get route i = true ↔
    ∃ r ∈ records, r.level = level ∧ r.route = route ∧ i ∈ r.reached

namespace Lists

/-- A row has one record. -/
theorem eq_of_row_eq (h : t.Lists records) {r s : DegreeRecord} (hr : r ∈ records)
    (hs : s ∈ records) (hlevel : r.level = s.level) (hroute : r.route = s.route) : r = s := by
  have hnodup : (records.map fun r => (r.level, r.route)).Nodup := by
    rw [List.Nodup, List.pairwise_map]
    refine h.ascending.imp fun {r s} hlt heq => ?_
    obtain ⟨hlevel, hroute⟩ := Prod.mk.inj heq
    omega
  exact List.inj_on_of_nodup_map hnodup hr hs (Prod.ext hlevel hroute)

theorem mem_reached_iff (h : t.Lists records) {r : DegreeRecord} (hr : r ∈ records) {i : Nat} :
    i ∈ r.reached ↔ (t.level (r.level + 1)).get r.route i = true := by
  rw [h.get_iff]
  constructor
  · exact fun hi => ⟨r, hr, rfl, rfl, hi⟩
  · rintro ⟨s, hs, hlevel, hroute, hi⟩
    rwa [← h.eq_of_row_eq hs hr hlevel hroute]

theorem mem_of_mem (h : t.Lists records) (hothers : t.Lists others) {r : DegreeRecord}
    (hr : r ∈ records) : r ∈ others := by
  -- a row that leads somewhere has a record in the other list, and both list where it leads
  obtain ⟨i, hi⟩ := List.exists_mem_of_ne_nil _ (h.reached_ne hr)
  obtain ⟨s, hs, hlevel, hroute, -⟩ :=
    (hothers.get_iff _ _ i).mp ((h.mem_reached_iff hr).mp hi)
  have hreached : s.reached = r.reached := by
    refine (hothers.reached_ascending hs).eq_of_mem_iff (h.reached_ascending hr) fun i => ?_
    rw [hothers.mem_reached_iff hs, h.mem_reached_iff hr, hlevel, hroute]
  obtain rfl : s = r := by
    cases s
    cases r
    cases hlevel
    cases hroute
    cases hreached
    rfl
  exact hs

/-- **There is one list.** -/
theorem unique (h : t.Lists records) (hothers : t.Lists others) : records = others := by
  have hnodup {l : List DegreeRecord} (hl : t.Lists l) : l.Nodup :=
    hl.ascending.imp fun {r s} hlt heq => by
      subst heq
      omega
  have hperm : records.Perm others := (List.perm_ext_iff_of_nodup (hnodup h) (hnodup hothers)).mpr
    fun r => ⟨h.mem_of_mem hothers, hothers.mem_of_mem h⟩
  refine hperm.eq_of_pairwise (fun r s _ _ hlt hgt => ?_) h.ascending hothers.ascending
  omega

end Lists

theorem ascending_records (t : Degrees) : t.records.Pairwise
    fun r s => r.level < s.level ∨ r.level = s.level ∧ r.route < s.route := by
  refine List.pairwise_flatMap.mpr ⟨?_, ?_⟩
  · rintro ⟨m, level⟩ -
    refine List.Pairwise.filterMap _ (fun route route' hlt r hr s hs => ?_) List.pairwise_lt_range
    split at hr <;> cases hr
    split at hs <;> cases hs
    exact .inr ⟨rfl, hlt⟩
  · have hlevels : t.levels.zipIdx.Pairwise fun a b => a.2 < b.2 := by
      rw [← List.pairwise_map, List.zipIdx_map_snd]
      exact List.pairwise_lt_range'
    refine hlevels.imp fun {a b} hlt r hr s hs => .inl ?_
    obtain ⟨route, -, hr⟩ := List.mem_filterMap.mp hr
    obtain ⟨route', -, hs⟩ := List.mem_filterMap.mp hs
    split at hr <;> cases hr
    split at hs <;> cases hs
    exact hlt

/-- **What is recorded is the list.** -/
theorem lists_records (t : Degrees) : t.Lists t.records where
  ascending := ascending_records t
  reached_ne {r} hr := by
    obtain ⟨m, -, -, hsome, hreached⟩ := mem_records_iff.mp hr
    intro hnil
    rw [← Bool.not_eq_true, Bitmap.isEmpty_iff] at hsome
    refine hsome fun i => ?_
    rw [← Bool.not_eq_true, ← Bitmap.mem_toList, ← hreached, hnil]
    exact List.not_mem_nil
  reached_ascending {r} hr := by
    obtain ⟨m, -, -, -, hreached⟩ := mem_records_iff.mp hr
    rw [hreached]
    exact Bitmap.pairwise_toList _
  get_iff level route i := by
    constructor
    · intro hget
      unfold Degrees.level at hget
      rw [Nat.add_sub_cancel] at hget
      split at hget
      · next m hm =>
        refine ⟨⟨level, route, (m.row route).toList⟩, ?_, rfl, rfl, Bitmap.mem_toList.mpr hget⟩
        refine mem_records_iff.mpr ⟨m, hm, BitMatrix.lt_size_of_get hget, ?_, rfl⟩
        rw [← Bool.not_eq_true, Bitmap.isEmpty_iff]
        exact fun hempty => absurd hget (by rw [BitMatrix.get_eq_row, hempty i]; decide)
      · rw [BitMatrix.get_empty] at hget
        cases hget
    · rintro ⟨r, hr, rfl, rfl, hi⟩
      obtain ⟨m, hm, -, -, hreached⟩ := mem_records_iff.mp hr
      rw [hreached, Bitmap.mem_toList] at hi
      unfold Degrees.level
      rw [Nat.add_sub_cancel, hm]
      exact hi

/-- The records of degrees are stored as they are, unless there are more routes than sixteen bits
tell apart. -/
theorem map_narrowed_records (h : t.Squares) (hsize : t.size ≤ UInt16.size) :
    t.records.map DegreeRecord.narrowed = t.records := by
  refine (List.map_congr_left fun r hr => ?_).trans t.records.map_id
  obtain ⟨hlevel, hroute, hreached⟩ := fits_iff.mp (fits_of_mem_records h hr)
  have hdegrees : maxDegree ≤ UInt8.size := by decide
  exact DegreeRecord.narrowed_eq (by omega) (by omega) fun i hi =>
    Nat.lt_of_lt_of_le (hreached i hi) hsize

/-! ## What records tell -/

theorem get_level_eq (t : Degrees) (level route i : Nat) : (t.level (level + 1)).get route i =
    ((rowAt t.levels level route).getD (Bitmap.empty 0)).get i := by
  unfold Degrees.level
  rw [Nat.add_sub_cancel, rowAt]
  cases t.levels[level]? with
  | some m => rfl
  | none => rw [BitMatrix.get_empty, Option.bind_none, Option.getD_none, Bitmap.get_empty]

/-- Records are accepted if all of them fit, and refused otherwise. -/
theorem exists_ofRecords_iff : (∃ t, ofRecords n records = .ok t) ↔
    ∀ r ∈ records, fits n.size r = true := by
  constructor
  · rintro ⟨t, ht⟩
    exact (ofRecords_eq_ok_iff.mp ht).1
  · intro hfits
    have hstored : storeAll n.size (List.replicate maxDegree (.empty n.size)) records = .ok _ :=
      storeAll_eq_ok_iff.mpr ⟨hfits, rfl⟩
    have hlength := (length_storeAll hstored).trans List.length_replicate
    exact ⟨⟨n, _, hlength⟩, ofRecords_eq_ok_iff.mpr ⟨hfits, rfl, rfl⟩⟩

/-- **A row leads where the last record of it says**, and nowhere if there is none. -/
theorem get_level_iff_of_ofRecords (ht : ofRecords n records = .ok t) (level route i : Nat) :
    (t.level (level + 1)).get route i = true ↔ ∃ r,
      records.findRev? (fun r => r.level = level ∧ r.route = route) = some r ∧ i ∈ r.reached := by
  obtain ⟨hfits, -, hlevels⟩ := ofRecords_eq_ok_iff.mp ht
  rw [get_level_eq, hlevels, rowAt_foldl_store]
  cases hlast : records.findRev? fun r => r.level = level ∧ r.route = route with
  | some r =>
    obtain ⟨hr, hkey⟩ := of_findRev?_eq_some hlast
    obtain ⟨rfl, rfl⟩ := of_decide_eq_true hkey
    obtain ⟨hlevel, hroute, hreached⟩ := fits_iff.mp (hfits r hr)
    rw [rowAt_replicate hlevel, if_pos hroute]
    simp only [Option.map_some, Option.getD_some, Bitmap.get_ofList, Bool.and_eq_true,
      decide_eq_true_eq, List.contains_iff_mem, Option.some.injEq, exists_eq_left']
    exact and_iff_right_of_imp fun hi => hreached i hi
  | none =>
    have hnone : ¬ ∃ r, (none : Option DegreeRecord) = some r ∧ i ∈ r.reached := by simp
    refine iff_of_false ?_ hnone
    rw [Option.map_none]
    by_cases hlevel : level < maxDegree
    · rw [rowAt_replicate hlevel]
      split <;> simp
    · rw [rowAt, List.getElem?_eq_none (by simpa using hlevel)]
      simp

/-- **Degrees and their records.**  What is recorded is stored as it is, and tells the degrees
again; built degrees are as large as their numbering, which is all that this takes.  Records are
accepted if every number in them is in range, and then tell what the last record of each row says;
they are recorded again as the one list there is. -/
theorem rows_recorded_and_told :
    (∀ t : Degrees, t.Squares → t.size ≤ UInt16.size →
      t.records.map DegreeRecord.narrowed = t.records ∧ ofRecords t.numbering t.records = .ok t) ∧
    (∀ n shared interchanges t, build n shared interchanges = .ok t → t.Squares) ∧
    ∀ n records,
      ((∃ t, ofRecords n records = .ok t) ↔
        ∀ r ∈ records, r.level < maxDegree ∧ r.route < n.size ∧ ∀ i ∈ r.reached, i < n.size) ∧
      ∀ t, ofRecords n records = .ok t → t.numbering = n ∧ t.Squares ∧
        (∀ level route i, (t.level (level + 1)).get route i = true ↔ ∃ r,
          records.findRev? (fun r => r.level = level ∧ r.route = route) = some r ∧
            i ∈ r.reached) ∧
        t.Lists t.records ∧ ∀ others, t.Lists others → others = t.records := by
  refine ⟨fun t h hsize => ⟨map_narrowed_records h hsize, ofRecords_records h rfl⟩,
    fun n shared interchanges t ht => squares_of_build ht, fun n records => ⟨?_, fun t ht => ?_⟩⟩
  · simp only [exists_ofRecords_iff, fits_iff]
  · obtain ⟨hn, hsquares⟩ := squares_of_ofRecords ht
    exact ⟨hn, hsquares, get_level_iff_of_ofRecords ht, lists_records t,
      fun others h => h.unique (lists_records t)⟩

end Degrees

/-! ## Rows that are told twice -/

namespace ToldTwice

open SampleCity

/-- Records out of order.  The row of the pink line is told twice, and that of the green line is
taken back. -/
def rows : List DegreeRecord :=
  [⟨4, 3, [1]⟩, ⟨0, 2, [3, 0, 3]⟩, ⟨0, 1, [2]⟩, ⟨0, 2, [1, 0, 1]⟩, ⟨0, 1, []⟩]

/-- The last records count, and are recorded again in order, without the row that was taken back. -/
theorem recorded_once : ∃ t, Degrees.ofRecords (.ofSorted routes) rows = .ok t ∧
    (t.level 1).get 2 3 = false ∧ t.records = [⟨0, 2, [0, 1]⟩, ⟨4, 3, [1]⟩] ∧
    t.records.map DegreeRecord.narrowed = t.records ∧
    Degrees.ofRecords t.numbering t.records = .ok t := by
  obtain ⟨hrecorded, -, htold⟩ := Degrees.rows_recorded_and_told
  obtain ⟨haccepted, hresult⟩ := htold (.ofSorted routes) rows
  obtain ⟨t, ht⟩ := haccepted.mpr (by decide)
  obtain ⟨hn, hsquares, hget, -⟩ := hresult t ht
  have hsize : t.size ≤ UInt16.size := by
    rw [Degrees.size, hn]
    decide
  have hrecords : (Degrees.ofRecords (.ofSorted routes) rows).map Degrees.records =
      .ok [⟨0, 2, [0, 1]⟩, ⟨4, 3, [1]⟩] := rfl
  rw [ht] at hrecords
  refine ⟨t, ht, ?_, Except.ok.inj hrecords, hrecorded t hsquares hsize⟩
  rw [← Bool.not_eq_true, hget 0 2 3]
  rintro ⟨r, hlast, hi⟩
  obtain rfl : (⟨0, 2, [1, 0, 1]⟩ : DegreeRecord) = r := Option.some.inj hlast
  exact absurd hi (by decide)

end ToldTwice
end TransitChanges
