import Mathlib.Data.List.GetD
import TransitChanges.Calendar.Date

/-!
# From a day to the next

A date is kept as the number of its day, and its year, month and day are computed from that number
through cycles of 400 years, centuries, spans of four years, years and months.  The calendar itself
knows nothing of such numbers: it goes from a day to the next one of the month, from the last day of
a month to the first of the next, and from the last month to a new year (`Civil.next`).

Counting days and going from day to day agree over the whole calendar, also in years before year 1
and in years of five or six digits.  So a step from a date to the next one can be said in the words
of the calendar (`Date.next?`), and it adds one to the number of the day.

* `isValid_ofDayNumber`, `dayNumber_ofDayNumber`: every number is that of the civil day it stands for.
* `dayNumber_next`: the next civil day has the next number.
* `next?_eq_some_iff`, `next?_eq_none_iff`: the date after a date, which only the last one lacks.
-/

namespace TransitChanges.Calendar

/-! ## Years -/

/-- The number of days of a year. -/
def yearLength (year : Int) : Nat :=
  if isLeapYear year then 366 else 365

theorem isLeapYear_iff {year : Int} :
    isLeapYear year = true ↔ year % 4 = 0 ∧ (year % 100 ≠ 0 ∨ year % 400 = 0) := by
  simp [isLeapYear]

/-- A year begins after all days of the year before. -/
theorem daysBeforeYear_add_one (year : Int) :
    daysBeforeYear (year + 1) = daysBeforeYear year + yearLength year := by
  unfold daysBeforeYear yearLength
  dsimp only
  split
  · next h =>
    rw [isLeapYear_iff] at h
    omega
  · next h =>
    rw [isLeapYear_iff] at h
    omega

namespace Civil

/-! ## Months -/

/-- The number of days of a month, 0 if there is no such month. -/
def monthLength (year : Int) (month : Nat) : Nat :=
  (monthLengths year).getD (month - 1) 0

theorem isValid_iff {c : Civil} :
    c.isValid = true ↔ 1 ≤ c.month ∧ 1 ≤ c.day ∧ c.day ≤ monthLength c.year c.month := by
  simp [isValid, monthLength, and_assoc]

theorem length_monthLengths (year : Int) : (monthLengths year).length = 12 := rfl

theorem le_of_mem_monthLengths {year : Int} {n : Nat} (h : n ∈ monthLengths year) : 28 ≤ n := by
  simp only [monthLengths, List.mem_cons, List.not_mem_nil, or_false] at h
  split at h <;> omega

/-- Each of the twelve months has days. -/
theorem le_monthLength {year : Int} {month : Nat} (hfirst : 1 ≤ month) (hlast : month ≤ 12) :
    28 ≤ monthLength year month := by
  have hlt : month - 1 < (monthLengths year).length := by
    rw [length_monthLengths]
    omega
  rw [monthLength, List.getD_eq_getElem _ _ hlt]
  exact le_of_mem_monthLengths (List.getElem_mem hlt)

/-- There are no more than twelve months. -/
theorem le_twelve_of_monthLength_pos {year : Int} {month : Nat} (h : 1 ≤ monthLength year month) :
    month ≤ 12 := by
  refine Nat.not_lt.mp fun hgt => ?_
  rw [monthLength, List.getD_eq_default _ _ (by rw [length_monthLengths]; omega)] at h
  omega

theorem foldr_take_add_one (lengths : List Nat) (n : Nat) :
    (lengths.take (n + 1)).foldr (· + ·) 0 =
      (lengths.take n).foldr (· + ·) 0 + lengths.getD n 0 := by
  induction lengths generalizing n with
  | nil => simp
  | cons length lengths ih =>
    cases n with
    | zero => simp
    | succ n =>
      simp only [List.take_succ_cons, List.foldr_cons, List.getD_cons_succ]
      rw [ih, Nat.add_assoc]

/-- A month begins after all days of the month before. -/
theorem daysBeforeMonth_add_one {month : Nat} (year : Int) (h : 1 ≤ month) :
    daysBeforeMonth year (month + 1) = daysBeforeMonth year month + monthLength year month := by
  have hmonth : month + 1 - 1 = month - 1 + 1 := by omega
  rw [daysBeforeMonth, hmonth, foldr_take_add_one]
  rfl

/-- The months make up the year. -/
theorem foldr_monthLengths (year : Int) :
    (monthLengths year).foldr (· + ·) 0 = yearLength year := by
  unfold monthLengths yearLength
  split <;> rfl

/-! ## The next civil day -/

/-- The day after a day: the next one of the month, or else the first of the next month, or else the
first of the next year. -/
def next (c : Civil) : Civil :=
  if c.day < monthLength c.year c.month then ⟨c.year, c.month, c.day + 1⟩
  else if c.month < 12 then ⟨c.year, c.month + 1, 1⟩
  else ⟨c.year + 1, 1, 1⟩

/-- There is a day after every day. -/
theorem isValid_next {c : Civil} (h : c.isValid = true) : c.next.isValid = true := by
  rw [isValid_iff] at h
  unfold next
  split
  · next hday =>
    rw [isValid_iff]
    dsimp only
    omega
  · split
    · next hmonth =>
      have hlength : 28 ≤ monthLength c.year (c.month + 1) := le_monthLength (by omega) (by omega)
      rw [isValid_iff]
      dsimp only
      omega
    · have hlength : 28 ≤ monthLength (c.year + 1) 1 := le_monthLength (Nat.le_refl 1) (by decide)
      rw [isValid_iff]
      dsimp only
      omega

/-- **The next day has the next number.** -/
theorem dayNumber_next {c : Civil} (h : c.isValid = true) :
    c.next.dayNumber = c.dayNumber + 1 := by
  obtain ⟨hmonth, hday, hlength⟩ := isValid_iff.mp h
  have hbefore := daysBeforeMonth_add_one c.year hmonth
  unfold next dayNumber
  split
  · dsimp only
    omega
  · split
    · dsimp only
      omega
    · -- the last day of December, which is the end of the twelve months
      next hlast hdecember =>
      have htwelve : c.month = 12 :=
        Nat.le_antisymm (le_twelve_of_monthLength_pos (Nat.le_trans hday hlength)) (by omega)
      have hyear : daysBeforeMonth c.year (c.month + 1) = yearLength c.year := by
        rw [htwelve, ← foldr_monthLengths]
        rfl
      have hfirst : daysBeforeMonth (c.year + 1) 1 = 0 := rfl
      dsimp only
      rw [daysBeforeYear_add_one, hfirst]
      omega

/-! ## The civil form of a number -/

/-- The month and the day at a place in the year. -/
theorem exists_monthAndDay_eq (lengths : List Nat) (month place : Nat)
    (h : place < lengths.foldr (· + ·) 0) :
    ∃ k day, monthAndDay lengths month place = (month + k, day) ∧
      (lengths.take k).foldr (· + ·) 0 + day = place + 1 ∧ 1 ≤ day ∧ day ≤ lengths.getD k 0 := by
  induction lengths generalizing month place with
  | nil => exact absurd h (Nat.not_lt_zero place)
  | cons length lengths ih =>
    rw [List.foldr_cons] at h
    unfold monthAndDay
    split
    · next hplace => exact ⟨0, place + 1, rfl, by simp, by omega, hplace⟩
    · next hplace =>
      obtain ⟨k, day, heq, hsum, hpos, hle⟩ := ih (month + 1) (place - length) (by omega)
      refine ⟨k + 1, day, ?_, ?_, hpos, ?_⟩
      · rw [heq, Nat.add_assoc, Nat.add_comm 1 k]
      · rw [List.take_succ_cons, List.foldr_cons]
        omega
      · rw [List.getD_cons_succ]
        exact hle

/-- The days of whole cycles, centuries, spans of four years and single years. -/
theorem daysBeforeYear_of_parts (cycle : Int) {century four single : Nat} (hcentury : century ≤ 3)
    (hfour : four ≤ 24) (hsingle : single ≤ 3) :
    daysBeforeYear (400 * cycle + ((100 * century + 4 * four + single : Nat) : Int) + 1) =
      146097 * cycle + 36524 * century + 1461 * four + 365 * single := by
  unfold daysBeforeYear
  dsimp only
  omega

/-- Only a leap year has a place 365. -/
theorem lt_yearLength_of_parts (cycle : Int) {century four single place : Nat}
    (hfour : four ≤ 24) (hsingle : single ≤ 3) (hplace : place ≤ 365)
    (hleap : place = 365 → single = 3 ∧ (four ≠ 24 ∨ century = 3)) :
    place < yearLength (400 * cycle + ((100 * century + 4 * four + single : Nat) : Int) + 1) := by
  unfold yearLength
  split
  · omega
  · next hnot =>
    rw [isLeapYear_iff] at hnot
    omega

/-- Every number is that of a place in some year. -/
theorem exists_place_eq (n : Int) :
    ∃ (year : Int) (place : Nat), daysBeforeYear year + place = n ∧ place < yearLength year ∧
      ofDayNumber n = ⟨year, (monthAndDay (monthLengths year) 1 place).1,
        (monthAndDay (monthLengths year) 1 place).2⟩ := by
  refine ⟨_, _, ?_, ?_, rfl⟩
  · rw [daysBeforeYear_of_parts _ (Nat.min_le_left _ _) (by omega) (Nat.min_le_left _ _)]
    omega
  · exact lt_yearLength_of_parts _ (by omega) (Nat.min_le_left _ _) (by omega) (by omega)

/-- Every number is that of a day in some month of some year. -/
theorem exists_ofDayNumber_eq (n : Int) :
    ∃ (year : Int) (k day : Nat), ofDayNumber n = ⟨year, 1 + k, day⟩ ∧
      daysBeforeYear year + daysBeforeMonth year (1 + k) + day = n + 1 ∧
      1 ≤ day ∧ day ≤ monthLength year (1 + k) := by
  obtain ⟨year, place, hn, hplace, heq⟩ := exists_place_eq n
  rw [← foldr_monthLengths] at hplace
  obtain ⟨k, day, hmonth, hsum, hpos, hle⟩ := exists_monthAndDay_eq _ 1 _ hplace
  refine ⟨year, k, day, by rw [heq, hmonth], ?_, hpos, ?_⟩
  · rw [daysBeforeMonth, Nat.add_sub_cancel_left]
    omega
  · rwa [monthLength, Nat.add_sub_cancel_left]

/-- Every number stands for a civil day. -/
theorem isValid_ofDayNumber (n : Int) : (ofDayNumber n).isValid = true := by
  obtain ⟨year, k, day, heq, -, hpos, hle⟩ := exists_ofDayNumber_eq n
  rw [heq, isValid_iff]
  exact ⟨Nat.le_add_right 1 k, hpos, hle⟩

/-- **The civil day that a number stands for has that number.** -/
theorem dayNumber_ofDayNumber (n : Int) : (ofDayNumber n).dayNumber = n := by
  obtain ⟨year, k, day, heq, hn, -⟩ := exists_ofDayNumber_eq n
  rw [heq, dayNumber, hn, Int.add_sub_cancel]

end Civil

/-! ## The next date -/

namespace Date

/-- The date after a date, if the calendar reaches so far. -/
def next? (d : Date) : Option Date :=
  ofCivil? d.civil.next

/-- The next date has the next number. -/
theorem next?_eq (d : Date) : d.next? = ofDay? (d.day + 1) := by
  have hvalid : d.civil.isValid = true := Civil.isValid_ofDayNumber d.day
  have hnumber : d.civil.dayNumber = d.day := Civil.dayNumber_ofDayNumber d.day
  rw [next?, ofCivil?, if_pos (Civil.isValid_next hvalid), Civil.dayNumber_next hvalid, hnumber]

theorem next?_eq_some_iff {d e : Date} : d.next? = some e ↔ e.day = d.day + 1 := by
  rw [next?_eq, ofDay?_eq_some_iff]

/-- Only the last date has none after it. -/
theorem next?_eq_none_iff {d : Date} : d.next? = none ↔ d = last := by
  have hle := d.le_last
  rw [Option.eq_none_iff_forall_ne_some]
  constructor
  · intro h
    have hnot : ¬ d.day + 1 ≤ lastDay := fun hlt =>
      h ⟨d.day + 1, by have := d.first_le; omega, hlt⟩ (next?_eq_some_iff.mpr rfl)
    exact Date.ext (show d.day = lastDay by omega)
  · rintro rfl e he
    have hlast := e.le_last
    rw [next?_eq_some_iff] at he
    rw [he] at hlast
    exact absurd hlast (by decide)

/-- The last date is the last day of December of the year 262142. -/
example : last.civil = ⟨262142, 12, 31⟩ := by
  cbv

end Date
end TransitChanges.Calendar
