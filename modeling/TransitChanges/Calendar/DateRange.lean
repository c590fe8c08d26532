import TransitChanges.Calendar.DaySet

/-!
# Ranges of dates

A range of dates includes both of its ends, and its type keeps them in order.

Walking through a range day by day stops short of the calendar's very last date: the step from a
date to the next one is taken before the date is given out, and from the last date there is none.
So `dates` misses that date, and so does everything that is decided by looking at the dates
(`anyDateOn` for short ranges).

* `mem_dates_iff`: the dates walked through.
* `contains_intersection`: the dates two ranges share.
-/

namespace TransitChanges.Calendar

/-- All dates from one to another. -/
structure DateRange where
  start : Date
  finish : Date
  start_le : start ≤ finish
  deriving DecidableEq

namespace DateRange

/-- The range between two dates, which have to be in order. -/
def between (start finish : Date) : Except Fault DateRange :=
  if h : start ≤ finish then .ok ⟨start, finish, h⟩ else .error (.datesReversed start finish)

/-- The range of a single date. -/
def single (date : Date) : DateRange :=
  ⟨date, date, Int.le_refl _⟩

/-- Whether a date is in the range. -/
def contains (r : DateRange) (date : Date) : Bool :=
  r.start ≤ date && date ≤ r.finish

/-- Whether two ranges share a date. -/
def overlaps (r s : DateRange) : Bool :=
  r.start ≤ s.finish && s.start ≤ r.finish

/-- The later of two dates. -/
def later (a b : Date) : Date :=
  if a ≤ b then b else a

/-- The earlier of two dates. -/
def earlier (a b : Date) : Date :=
  if a ≤ b then a else b

theorem day_later (a b : Date) : (later a b).day = max a.day b.day := by
  unfold later
  split <;> rename_i h <;> rw [Date.le_def] at h <;> omega

theorem day_earlier (a b : Date) : (earlier a b).day = min a.day b.day := by
  unfold earlier
  split <;> rename_i h <;> rw [Date.le_def] at h <;> omega

/-- The dates two ranges share. -/
def intersection (r s : DateRange) : Option DateRange :=
  if h : r.overlaps s then
    some ⟨later r.start s.start, earlier r.finish s.finish, by
      simp only [overlaps, Bool.and_eq_true, decide_eq_true_eq, Date.le_def] at h
      rw [Date.le_def, day_later, day_earlier]
      have hr := Date.le_def.mp r.start_le
      have hs := Date.le_def.mp s.start_le
      omega⟩
  else none

/-- The number of dates in the range. -/
def numberOfDays (r : DateRange) : Nat :=
  (r.finish.day - r.start.day).toNat + 1

/-- The number of dates met when walking through the range. -/
def numberWalked (r : DateRange) : Nat :=
  if r.finish = Date.last then r.numberOfDays - 1 else r.numberOfDays

/-- The first of the dates met when walking through the range. -/
def firstDates (r : DateRange) (n : Nat) : List Date :=
  (List.range (min n r.numberWalked)).filterMap fun (i : Nat) =>
    Date.ofDay? (r.start.day + i)

/-- The dates met when walking through the range. -/
def dates (r : DateRange) : List Date :=
  r.firstDates r.numberWalked

/-- Whether some date of the range falls on one of the days.  Seven dates or more have every
weekday among them; fewer are looked at one by one. -/
def anyDateOn (r : DateRange) (days : DaySet) : Bool :=
  !days.isEmpty &&
    (days.isAll || 7 ≤ r.numberOfDays || r.dates.any fun date => days.contains date.weekday)

/-- `A to B`. -/
def text (r : DateRange) : String :=
  r.start.text ++ " to " ++ r.finish.text

/-- How a range is shown. -/
def inspect (r : DateRange) : String :=
  "DateRange(" ++ r.start.text ++ "..=" ++ r.finish.text ++ ")"

/-! ## Laws -/

theorem contains_iff {r : DateRange} {date : Date} :
    r.contains date = true ↔ r.start.day ≤ date.day ∧ date.day ≤ r.finish.day := by
  simp [contains, Date.le_def]

theorem overlaps_iff {r s : DateRange} :
    r.overlaps s = true ↔ r.start.day ≤ s.finish.day ∧ s.start.day ≤ r.finish.day := by
  simp [overlaps, Date.le_def]

theorem overlaps_comm (r s : DateRange) : r.overlaps s = s.overlaps r :=
  Bool.and_comm _ _

/-- Two ranges share the dates that both contain. -/
theorem contains_intersection {r s t : DateRange} (h : r.intersection s = some t) (date : Date) :
    t.contains date = (r.contains date && s.contains date) := by
  unfold intersection at h
  split at h
  · rw [← Option.some.inj h, Bool.eq_iff_iff, Bool.and_eq_true, contains_iff, contains_iff,
      contains_iff, day_later, day_earlier]
    omega
  · simp at h

theorem intersection_eq_none_iff {r s : DateRange} :
    r.intersection s = none ↔ r.overlaps s = false := by
  unfold intersection
  split <;> simp_all

theorem later_comm (a b : Date) : later a b = later b a :=
  Date.ext (by rw [day_later, day_later, Int.max_comm])

theorem earlier_comm (a b : Date) : earlier a b = earlier b a :=
  Date.ext (by rw [day_earlier, day_earlier, Int.min_comm])

/-- Two ranges share the same dates either way round. -/
theorem intersection_comm (r s : DateRange) : r.intersection s = s.intersection r := by
  simp only [intersection, overlaps_comm s r, later_comm s.start, earlier_comm s.finish]

theorem toNat_numberOfDays (r : DateRange) :
    (r.numberOfDays : Int) = r.finish.day - r.start.day + 1 := by
  have h := Date.le_def.mp r.start_le
  unfold numberOfDays
  omega

theorem mem_firstDates_iff {r : DateRange} {n : Nat} {date : Date} :
    date ∈ r.firstDates n ↔
      r.start.day ≤ date.day ∧ date.day < r.start.day + (min n r.numberWalked : Nat) := by
  unfold firstDates
  rw [List.mem_filterMap]
  constructor
  · rintro ⟨i, hi, hd⟩
    rw [List.mem_range] at hi
    rw [Date.ofDay?_eq_some_iff] at hd
    omega
  · intro h
    refine ⟨(date.day - r.start.day).toNat, ?_, ?_⟩
    · rw [List.mem_range]
      omega
    · rw [Date.ofDay?_eq_some_iff]
      omega

/-- The dates walked through are those of the range, the calendar's last date apart. -/
theorem mem_dates_iff {r : DateRange} {date : Date} :
    date ∈ r.dates ↔ r.contains date = true ∧ date ≠ Date.last := by
  rw [dates, mem_firstDates_iff, contains_iff, Nat.min_self]
  have hn := r.toNat_numberOfDays
  have hw : r.numberWalked = if r.finish = Date.last then r.numberOfDays - 1
      else r.numberOfDays := rfl
  have hle := r.finish.le_last
  have hd := date.le_last
  have ne : date ≠ Date.last ↔ date.day ≠ lastDay :=
    not_congr ⟨fun h => congrArg Date.day h, fun h => Date.ext h⟩
  have eq : r.finish = Date.last ↔ r.finish.day = lastDay :=
    ⟨fun h => congrArg Date.day h, fun h => Date.ext h⟩
  rw [ne, hw]
  split <;> rename_i h <;> rw [eq] at h <;> omega

end DateRange
end TransitChanges.Calendar
