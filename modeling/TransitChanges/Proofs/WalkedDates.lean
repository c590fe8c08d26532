import Mathlib.Data.List.Nodup
import TransitChanges.Calendar.DateRange
import TransitChanges.Proofs.CivilDays

/-!
# Walking through a range of dates

The dates of a range are computed from day numbers.  What they are meant to be is a walk through the
calendar: one goes on from the first date of the range from day to day and stops behind the last.  A
date is met only if the calendar goes on after it (`Date.DaysFrom`), so the calendar's last date is
never met, and this is the only date of a range that the walk can miss.

The computed dates and those of the walk are the same list, since both are in strictly ascending
order and name the same dates.  The length of the list is the number of days of the range, which is
counted from its two ends, or one less where the range ends with the calendar.

* `DaysFrom.mem_iff`, `DaysFrom.pairwise`: the dates met when going on from one.
* `dates_eq_takeWhile`: the dates of a range are those of the walk.
* `length_dates_cases`: how many they are.
* `walked_and_shared`: the dates of a range, and those that two ranges share.
-/

namespace TransitChanges.Calendar

/-! ## Going on from a date -/

namespace Date

/-- Going on from a date for as long as there is a next one, one meets the dates of a list. -/
inductive DaysFrom : Date → List Date → Prop where
  | done {d : Date} : d.next? = none → DaysFrom d []
  | more {d e : Date} {dates : List Date} :
      d.next? = some e → DaysFrom e dates → DaysFrom d (d :: dates)

/-- However far it is to the end of the calendar, one gets there. -/
theorem exists_daysFrom (d : Date) : ∃ dates, d.DaysFrom dates := by
  obtain ⟨n, hn⟩ : ∃ n : Nat, (n : Int) = lastDay - d.day :=
    Int.eq_ofNat_of_zero_le (Int.sub_nonneg_of_le d.le_last) |>.imp fun _ => Eq.symm
  induction n generalizing d with
  | zero =>
    refine ⟨[], .done (next?_eq_none_iff.mpr (Date.ext ?_))⟩
    show d.day = lastDay
    omega
  | succ n ih =>
    have hfirst := d.first_le
    let e : Date := ⟨d.day + 1, by omega, by omega⟩
    obtain ⟨dates, hdates⟩ := ih e (show (n : Int) = lastDay - (d.day + 1) by omega)
    exact ⟨d :: dates, .more (next?_eq_some_iff.mpr rfl) hdates⟩

namespace DaysFrom

variable {d : Date} {dates : List Date}

/-- All dates that follow are met, the last one apart. -/
theorem mem_iff (h : d.DaysFrom dates) {date : Date} : date ∈ dates ↔ d ≤ date ∧ date ≠ last := by
  induction h with
  | done hnone =>
    rw [next?_eq_none_iff] at hnone
    refine iff_of_false List.not_mem_nil ?_
    rintro ⟨hle, hne⟩
    rw [hnone, le_def] at hle
    exact hne (Date.ext (Int.le_antisymm date.le_last hle))
  | @more d e dates hnext _ ih =>
    have hne : d ≠ last := fun heq => by
      rw [next?_eq_none_iff.mpr heq] at hnext
      cases hnext
    rw [next?_eq_some_iff] at hnext
    rw [List.mem_cons, ih, le_def, le_def, hnext]
    constructor
    · rintro (rfl | ⟨hle, hdate⟩)
      · exact ⟨Int.le_refl _, hne⟩
      · exact ⟨by omega, hdate⟩
    · rintro ⟨hle, hdate⟩
      by_cases heq : date = d
      · exact .inl heq
      · have hday : date.day ≠ d.day := fun hday => heq (Date.ext hday)
        exact .inr ⟨by omega, hdate⟩

/-- Dates are met in their order. -/
theorem pairwise (h : d.DaysFrom dates) : dates.Pairwise (· < ·) := by
  induction h with
  | done => exact List.Pairwise.nil
  | @more d e dates hnext hrest ih =>
    rw [next?_eq_some_iff] at hnext
    refine List.pairwise_cons.mpr ⟨fun date hdate => ?_, ih⟩
    have hle := le_def.mp (hrest.mem_iff.mp hdate).1
    rw [lt_def]
    omega

end DaysFrom
end Date

/-! ## The dates of a range -/

/-- Dates in ascending order are not repeated. -/
theorem nodup_of_ascending {dates : List Date} (h : dates.Pairwise (· < ·)) : dates.Nodup := by
  refine h.imp fun {a b} hlt heq => ?_
  rw [heq] at hlt
  exact Int.lt_irrefl _ hlt

/-- Lists of dates in ascending order are told apart by the dates they name. -/
theorem eq_of_ascending {dates dates' : List Date} (h : dates.Pairwise (· < ·))
    (h' : dates'.Pairwise (· < ·)) (hmem : ∀ date, date ∈ dates ↔ date ∈ dates') :
    dates = dates' := by
  have hperm : dates.Perm dates' :=
    (List.perm_ext_iff_of_nodup (nodup_of_ascending h) (nodup_of_ascending h')).mpr hmem
  refine hperm.eq_of_pairwise (fun a b _ _ hab hba => ?_) h h'
  exact absurd (Int.lt_trans hab hba) (Int.lt_irrefl _)

namespace DateRange

variable {r s : DateRange}

/-- The dates of a range by their numbers, which follow each other from its start on. -/
theorem map_day_dates (r : DateRange) :
    r.dates.map Date.day = (List.range r.numberWalked).map fun (i : Nat) => r.start.day + i := by
  have hwalked : r.numberWalked ≤ r.numberOfDays := by
    unfold numberWalked
    split <;> omega
  have hsome : ∀ i ∈ List.range r.numberWalked,
      (Date.ofDay? (r.start.day + (i : Int))).map Date.day = some (r.start.day + (i : Int)) := by
    intro i hi
    have hdays := r.toNat_numberOfDays
    have hfirst := r.start.first_le
    have hlast := r.finish.le_last
    rw [List.mem_range] at hi
    rw [Date.ofDay?, dif_pos (by omega)]
    rfl
  rw [dates, firstDates, Nat.min_self, List.map_filterMap, List.filterMap_congr hsome]
  exact congrFun List.filterMap_eq_map' _

theorem length_dates_eq_numberWalked (r : DateRange) : r.dates.length = r.numberWalked := by
  rw [← List.length_map (f := Date.day), map_day_dates, List.length_map, List.length_range]

/-- One date less than there are days is met if the range ends with the calendar, and else as many
as there are days. -/
theorem length_dates_cases (r : DateRange) :
    r.finish = .last ∧ r.dates.length + 1 = r.numberOfDays ∨
      r.finish ≠ .last ∧ r.dates.length = r.numberOfDays := by
  have hdays := r.toNat_numberOfDays
  have hstart := Date.le_def.mp r.start_le
  rw [length_dates_eq_numberWalked, numberWalked]
  split
  · next hlast => exact .inl ⟨hlast, by omega⟩
  · next hlast => exact .inr ⟨hlast, rfl⟩

/-- The dates of a range are listed in their order. -/
theorem pairwise_dates (r : DateRange) : r.dates.Pairwise (· < ·) := by
  have hdays : (r.dates.map Date.day).Pairwise (· < ·) := by
    rw [map_day_dates, List.pairwise_map]
    exact List.pairwise_lt_range.imp fun {i j} hlt => by omega
  exact (List.pairwise_map.mp hdays).imp Date.lt_def.mpr

theorem mem_takeWhile_of_ascending {dates : List Date} (h : dates.Pairwise (· < ·))
    {finish date : Date} :
    date ∈ dates.takeWhile (fun d => d ≤ finish) ↔ date ∈ dates ∧ date ≤ finish := by
  induction dates with
  | nil => simp
  | cons d dates ih =>
    obtain ⟨hfirst, hrest⟩ := List.pairwise_cons.mp h
    by_cases hd : d ≤ finish
    · simp only [List.takeWhile_cons, hd, decide_true, if_true, List.mem_cons, ih hrest]
      constructor
      · rintro (rfl | ⟨hmem, hle⟩)
        · exact ⟨.inl rfl, hd⟩
        · exact ⟨.inr hmem, hle⟩
      · rintro ⟨rfl | hmem, hle⟩
        · exact .inl rfl
        · exact .inr ⟨hmem, hle⟩
    · -- all dates that follow are later still
      simp only [List.takeWhile_cons, hd, decide_false, Bool.false_eq_true, if_false, List.mem_cons]
      refine iff_of_false List.not_mem_nil ?_
      rintro ⟨rfl | hmem, hle⟩
      · exact hd hle
      · have hlt := Date.lt_def.mp (hfirst date hmem)
        rw [Date.le_def] at hd hle
        omega

/-- **The dates of a range are met by going on from its start** and stopping behind its end. -/
theorem dates_eq_takeWhile {days : List Date} (h : r.start.DaysFrom days) :
    r.dates = days.takeWhile fun date => date ≤ r.finish := by
  refine eq_of_ascending r.pairwise_dates (h.pairwise.sublist (List.takeWhile_sublist _)) ?_
  intro date
  rw [mem_takeWhile_of_ascending h.pairwise, h.mem_iff, mem_dates_iff, contains_iff, Date.le_def,
    Date.le_def]
  tauto

/-- The dates that are met and, if the range ends with the calendar, its last date are all dates of
the range. -/
theorem exists_allDates (r : DateRange) : ∃ all : List Date, all.Pairwise (· < ·) ∧
    (∀ date, date ∈ all ↔ r.contains date = true) ∧ all.length = r.numberOfDays := by
  rcases r.length_dates_cases with ⟨hlast, hlength⟩ | ⟨hlast, hlength⟩
  · refine ⟨r.dates ++ [.last], ?_, fun date => ?_, ?_⟩
    · refine List.pairwise_append.mpr ⟨r.pairwise_dates, List.pairwise_singleton _ _, ?_⟩
      intro date hdate last hmem
      rw [List.mem_singleton] at hmem
      have hne : date.day ≠ Date.last.day := fun hday => (mem_dates_iff.mp hdate).2 (Date.ext hday)
      rw [hmem, Date.lt_def]
      exact Int.lt_iff_le_and_ne.mpr ⟨date.le_last, hne⟩
    · rw [List.mem_append, List.mem_singleton, mem_dates_iff]
      constructor
      · rintro (⟨hcontains, -⟩ | rfl)
        · exact hcontains
        · rw [← hlast, contains_iff]
          exact ⟨Date.le_def.mp r.start_le, Int.le_refl _⟩
      · intro hcontains
        by_cases hdate : date = .last
        · exact .inr hdate
        · exact .inl ⟨hcontains, hdate⟩
    · rw [List.length_append, List.length_singleton, hlength]
  · refine ⟨r.dates, r.pairwise_dates, fun date => ?_, hlength⟩
    rw [mem_dates_iff, and_iff_left_iff_imp]
    rintro hcontains rfl
    -- the range would end with the calendar
    have hfinish := (contains_iff.mp hcontains).2
    exact hlast (Date.ext (Int.le_antisymm r.finish.le_last hfinish))

/-- The dates of a range are those of a walk through the calendar, and its days are counted from its
ends. -/
structure IsWalked (r : DateRange) : Prop where
  /-- One goes on from the start of the range and stops behind its end. -/
  walk : ∃ days, r.start.DaysFrom days ∧ r.dates = days.takeWhile fun date => date ≤ r.finish
  /-- The dates are met in their order, each once. -/
  ascending : r.dates.Pairwise (· < ·)
  /-- They are the dates of the range, the calendar's last date apart. -/
  mem_iff (date : Date) : date ∈ r.dates ↔ r.contains date = true ∧ date ≠ .last
  /-- The number of days is that of all dates of the range. -/
  counts : ∃ all : List Date, all.Pairwise (· < ·) ∧
    (∀ date, date ∈ all ↔ r.contains date = true) ∧ all.length = r.numberOfDays
  /-- As many are met exactly if the range does not end with the calendar. -/
  length_eq_iff : r.dates.length = r.numberOfDays ↔ r.finish ≠ .last
  /-- One less is met exactly if it does. -/
  length_add_one_eq_iff : r.dates.length + 1 = r.numberOfDays ↔ r.finish = .last

theorem isWalked (r : DateRange) : r.IsWalked where
  walk := by
    obtain ⟨days, hdays⟩ := r.start.exists_daysFrom
    exact ⟨days, hdays, dates_eq_takeWhile hdays⟩
  ascending := r.pairwise_dates
  mem_iff _ := mem_dates_iff
  counts := r.exists_allDates
  length_eq_iff := by
    rcases r.length_dates_cases with ⟨hlast, hlength⟩ | ⟨hlast, hlength⟩
    · exact iff_of_false (by omega) (not_not_intro hlast)
    · exact iff_of_true hlength hlast
  length_add_one_eq_iff := by
    rcases r.length_dates_cases with ⟨hlast, hlength⟩ | ⟨hlast, hlength⟩
    · exact iff_of_true hlength hlast
    · exact iff_of_false (by omega) hlast

/-! ## The dates that two ranges share -/

/-- What two ranges share is found without looking at dates. -/
structure Shares (r s : DateRange) : Prop where
  /-- Ranges overlap if some date is in both. -/
  overlaps_iff : r.overlaps s = true ↔ ∃ date, r.contains date = true ∧ s.contains date = true
  /-- They have an intersection exactly if they overlap. -/
  eq_none_iff : r.intersection s = none ↔ r.overlaps s = false
  /-- It is a range: its ends are in order. -/
  valid {t : DateRange} : r.intersection s = some t → between t.start t.finish = .ok t
  /-- It has the dates that are in both. -/
  contains {t : DateRange} : r.intersection s = some t →
    ∀ date, t.contains date = true ↔ r.contains date = true ∧ s.contains date = true
  /-- The order of the two ranges does not matter. -/
  overlaps_comm : r.overlaps s = s.overlaps r
  intersection_comm : r.intersection s = s.intersection r

theorem overlaps_iff_exists : r.overlaps s = true ↔
    ∃ date, r.contains date = true ∧ s.contains date = true := by
  constructor
  · intro h
    cases hshared : r.intersection s with
    | none =>
      rw [intersection_eq_none_iff, h] at hshared
      cases hshared
    | some t =>
      refine ⟨t.start, ?_⟩
      rw [← Bool.and_eq_true, ← contains_intersection hshared, contains_iff]
      exact ⟨Int.le_refl _, Date.le_def.mp t.start_le⟩
  · rintro ⟨date, hr, hs⟩
    rw [contains_iff] at hr hs
    rw [overlaps_iff]
    omega

theorem shares (r s : DateRange) : r.Shares s where
  overlaps_iff := overlaps_iff_exists
  eq_none_iff := intersection_eq_none_iff
  valid {t} _ := dif_pos t.start_le
  contains h date := by rw [contains_intersection h, Bool.and_eq_true]
  overlaps_comm := r.overlaps_comm s
  intersection_comm := r.intersection_comm s

/-- **The dates of a range are a walk through the calendar** that misses at most the last date there
is, **and two ranges share the dates that are in both**. -/
theorem walked_and_shared (r s : DateRange) : r.IsWalked ∧ r.Shares s :=
  ⟨r.isWalked, r.shares s⟩

/-- The range of the last date alone has a day and no date that is met. -/
example : (single .last).numberOfDays = 1 ∧ (single .last).dates = [] := by
  decide

end DateRange
end TransitChanges.Calendar
