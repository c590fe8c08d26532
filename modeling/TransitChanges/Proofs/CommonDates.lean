import TransitChanges.Route

/-!
# The dates on which two routes run

Whether two routes ever run on one date is decided without looking for such a date where that can be
avoided.  A range of seven dates or more has each weekday among them, because weekdays go round with
the day number (`exists_weekday_eq`); and a route that runs on every weekday runs on the first date
of any range.  Only in a range shorter than a week, and for days that are not the whole week, are the
dates walked through, and such a walk misses the calendar's last date.

So the answer is right but for two routes that have no common date other than that one and come to be
walked through (`MeetOnlyLast`).

* `anyDateOn_iff`: which ranges are found to have a date on some days.
* `sharesDateWith_iff`: which routes are found to share a date.
* `sharesDateWith_iff_exists_date`: the answer is whether there is a common date, the last one apart.
-/

namespace TransitChanges

open Calendar

namespace Calendar

/-! ## Weekdays in a set and in a range -/

namespace DaySet

theorem isEmpty_eq_false_iff {s : DaySet} : s.isEmpty = false ↔ ∃ day, s.contains day = true := by
  rw [← Bool.not_eq_true, isEmpty, beq_iff_eq]
  constructor
  · intro hne
    refine Classical.byContradiction fun hnone => hne ?_
    have hs : s = ⟨0⟩ := DaySet.ext fun day => by
      rw [contains_empty, ← Bool.not_eq_true]
      exact fun hday => hnone ⟨day, hday⟩
    rw [hs]
  · rintro ⟨day, hday⟩ hmask
    rw [contains, hmask] at hday
    simp at hday

theorem contains_of_isAll {s : DaySet} (h : s.isAll = true) (day : Weekday) :
    s.contains day = true := by
  rw [isAll, beq_iff_eq] at h
  rw [h, contains_all]

end DaySet

namespace DateRange

variable {r : DateRange} {days : DaySet}

/-- **Seven dates or more have every weekday among them.** -/
theorem exists_weekday_eq (h : 7 ≤ r.numberOfDays) (day : Weekday) :
    ∃ date, r.contains date = true ∧ date.weekday = day := by
  have hdays := r.toNat_numberOfDays
  have hlt := day.index_lt
  have hfirst := r.start.first_le
  have hlast := r.finish.le_last
  -- the first day from the start on whose number leaves the remainder of the weekday
  let number : Int := r.start.day + (day.index - r.start.day) % 7
  have hmod : number % 7 = day.index := by omega
  refine ⟨⟨number, by omega, by omega⟩, ?_, ?_⟩
  · rw [contains_iff]
    dsimp only
    omega
  · rw [Date.weekday, hmod, Int.toNat_natCast, Weekday.ofIndex_index]

/-- A range is found to have a date on some days exactly if it has one, where that date is walked
through or need not be. -/
theorem anyDateOn_iff : r.anyDateOn days = true ↔
    ∃ date, r.contains date = true ∧ days.contains date.weekday = true ∧
      (days.isAll = true ∨ 7 ≤ r.numberOfDays ∨ date ≠ .last) := by
  rw [anyDateOn, Bool.and_eq_true, Bool.not_eq_true', DaySet.isEmpty_eq_false_iff, Bool.or_eq_true,
    Bool.or_eq_true, decide_eq_true_eq, List.any_eq_true, or_assoc]
  constructor
  · rintro ⟨⟨day, hday⟩, hall | hlong | ⟨date, hmem, hdate⟩⟩
    · have hstart : r.contains r.start = true :=
        contains_iff.mpr ⟨Int.le_refl _, Date.le_def.mp r.start_le⟩
      exact ⟨r.start, hstart, DaySet.contains_of_isAll hall _, .inl hall⟩
    · obtain ⟨date, hdate, rfl⟩ := exists_weekday_eq hlong day
      exact ⟨date, hdate, hday, .inr (.inl hlong)⟩
    · obtain ⟨hcontains, hne⟩ := mem_dates_iff.mp hmem
      exact ⟨date, hcontains, hdate, .inr (.inr hne)⟩
  · rintro ⟨date, hcontains, hdate, hall | hlong | hne⟩
    · exact ⟨⟨_, hdate⟩, .inl hall⟩
    · exact ⟨⟨_, hdate⟩, .inr (.inl hlong)⟩
    · exact ⟨⟨_, hdate⟩, .inr (.inr ⟨date, mem_dates_iff.mpr ⟨hcontains, hne⟩, hdate⟩)⟩

end DateRange
end Calendar

/-! ## Common dates of routes -/

namespace Route

variable {r s : Route}

/-- A date on which both routes run. -/
def BothRunOn (r s : Route) (date : Date) : Prop :=
  r.runsOn date = true ∧ s.runsOn date = true

/-- The dates of both routes are those of their shared range on their shared days. -/
theorem bothRunOn_iff {shared : DateRange} (h : r.dates.intersection s.dates = some shared)
    {date : Date} : r.BothRunOn s date ↔
      shared.contains date = true ∧ (r.days.inter s.days).contains date.weekday = true := by
  rw [BothRunOn, runsOn_iff, runsOn_iff, DateRange.contains_intersection h,
    DaySet.contains_inter, Bool.and_eq_true, Bool.and_eq_true]
  constructor
  · rintro ⟨⟨hr, hrday⟩, hs, hsday⟩
    exact ⟨⟨hr, hs⟩, hrday, hsday⟩
  · rintro ⟨⟨hr, hs⟩, hrday, hsday⟩
    exact ⟨⟨hr, hrday⟩, hs, hsday⟩

theorem exists_intersection_of_bothRunOn {date : Date} (h : r.BothRunOn s date) :
    ∃ shared, r.dates.intersection s.dates = some shared := by
  obtain ⟨hr, hs⟩ := h
  have hrange := DateRange.contains_iff.mp (runsOn_iff.mp hr).1
  have hrange' := DateRange.contains_iff.mp (runsOn_iff.mp hs).1
  rw [← Option.isSome_iff_exists, Option.isSome_iff_ne_none, ne_eq,
    DateRange.intersection_eq_none_iff, Bool.not_eq_false, DateRange.overlaps_iff]
  omega

/-- The routes share a range shorter than a week. -/
def ShareShortRange (r s : Route) : Prop :=
  ∃ shared, r.dates.intersection s.dates = some shared ∧ shared.numberOfDays < 7

/-- Two routes are found to share a date exactly if they run on one, where that date is walked
through or need not be. -/
theorem sharesDateWith_iff : r.sharesDateWith s = true ↔
    ∃ date, r.BothRunOn s date ∧
      ((r.days.inter s.days).isAll = true ∨ ¬ r.ShareShortRange s ∨ date ≠ .last) := by
  cases hshared : r.dates.intersection s.dates with
  | none =>
    rw [sharesDateWith, hshared]
    refine iff_of_false Bool.false_ne_true ?_
    rintro ⟨date, hboth, -⟩
    obtain ⟨shared, hsome⟩ := exists_intersection_of_bothRunOn hboth
    rw [hshared] at hsome
    cases hsome
  | some shared =>
    have hlong : ¬ r.ShareShortRange s ↔ 7 ≤ shared.numberOfDays := by
      simp [ShareShortRange, hshared]
    rw [sharesDateWith, hshared]
    dsimp only
    rw [DateRange.anyDateOn_iff, hlong]
    simp only [bothRunOn_iff hshared, and_assoc]

/-- Routes that run on one date share a date, if it is not the calendar's last. -/
theorem sharesDateWith_of_runsOn {date : Date} (hr : r.runsOn date = true)
    (hs : s.runsOn date = true) (hdate : date ≠ .last) : r.sharesDateWith s = true :=
  sharesDateWith_iff.mpr ⟨date, ⟨hr, hs⟩, .inr (.inr hdate)⟩

/-- The routes run together on the calendar's last date and on no other, and dates have to be walked
through to find it: the range they share is shorter than a week, and they do not share every
weekday. -/
structure MeetOnlyLast (r s : Route) : Prop where
  short : r.ShareShortRange s
  notAll : (r.days.inter s.days).isAll = false
  bothRunOn_iff (date : Date) : r.BothRunOn s date ↔ date = .last

/-- **Two routes are found to share a date exactly if there is a date on which both run**, either way
round and for whatever ranges and days, unless that is the calendar's last date alone, in a range that
is walked through. -/
theorem sharesDateWith_iff_exists_date (r s : Route) :
    r.sharesDateWith s = s.sharesDateWith r ∧
    (r.sharesDateWith s = true ↔
      (∃ date, r.runsOn date = true ∧ s.runsOn date = true) ∧ ¬ r.MeetOnlyLast s) := by
  refine ⟨sharesDateWith_comm r s, ?_⟩
  rw [sharesDateWith_iff]
  constructor
  · rintro ⟨date, hboth, hfound⟩
    refine ⟨⟨date, hboth⟩, fun hlast => ?_⟩
    rcases hfound with hall | hlong | hne
    · rw [hlast.notAll] at hall
      cases hall
    · exact hlong hlast.short
    · exact hne ((hlast.bothRunOn_iff date).mp hboth)
  · rintro ⟨⟨date, hboth⟩, hnot⟩
    by_cases hother : ∃ date, r.BothRunOn s date ∧ date ≠ .last
    · obtain ⟨other, hboth, hne⟩ := hother
      exact ⟨other, hboth, .inr (.inr hne)⟩
    · -- the last date is the only one, so the dates are not walked through
      have honly (d : Date) (hd : r.BothRunOn s d) : d = .last :=
        Decidable.byContradiction fun hne => hother ⟨d, hd, hne⟩
      have hlast : r.BothRunOn s .last := honly date hboth ▸ hboth
      refine ⟨.last, hlast, ?_⟩
      cases hall : (r.days.inter s.days).isAll with
      | true => exact .inl rfl
      | false =>
        refine .inr (.inl fun hshort => hnot ⟨hshort, hall, fun d => ⟨honly d, ?_⟩⟩)
        rintro rfl
        exact hlast

/-- Two routes of the calendar's last date alone are not found to share it. -/
example (id : RouteId) : (⟨id, "last tram", .tram, .single .last, .weekdays⟩ : Route).sharesDateWith
    ⟨id, "last bus", .bus, .single .last, .weekdays⟩ = false := by
  cbv

end Route
end TransitChanges
