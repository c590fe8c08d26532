import TransitChanges.Text.Blank
import TransitChanges.Text.Decimal

/-!
# Calendar dates

A date is the number of its day in the proleptic Gregorian calendar, counted from Monday
1 January of year 1, which is day 0.  Counting days rather than storing a year, a month and a day
makes order, distance and weekday arithmetic on one integer; the civil form is computed where a
date is read or written.

The calendar is finite: it runs from `-262143-01-01` to `+262142-12-31`, and a `Date` carries the
proof that it lies in between.

* `ofDay?_eq_some_iff`: the days that are dates.
* `index_weekday`: weekdays go round with the day number.
-/

namespace TransitChanges.Calendar

open Text

/-! ## Weekdays -/

/-- The days of the week, Monday first. -/
inductive Weekday where
  | monday | tuesday | wednesday | thursday | friday | saturday | sunday
  deriving DecidableEq, Repr

namespace Weekday

/-- The days of the week in order. -/
def all : List Weekday :=
  [monday, tuesday, wednesday, thursday, friday, saturday, sunday]

/-- The place of a day in the week, from 0 for Monday to 6 for Sunday. -/
def index : Weekday → Nat
  | monday => 0
  | tuesday => 1
  | wednesday => 2
  | thursday => 3
  | friday => 4
  | saturday => 5
  | sunday => 6

/-- The day at a place in the week. -/
def ofIndex : Nat → Weekday
  | 0 => monday
  | 1 => tuesday
  | 2 => wednesday
  | 3 => thursday
  | 4 => friday
  | 5 => saturday
  | _ => sunday

/-- The three letters a weekday is named by. -/
def abbreviation : Weekday → String
  | monday => "Mon"
  | tuesday => "Tue"
  | wednesday => "Wed"
  | thursday => "Thu"
  | friday => "Fri"
  | saturday => "Sat"
  | sunday => "Sun"

/-- The weekday that three letters name. -/
def ofAbbreviation? (name : String) : Option Weekday :=
  all.find? fun day => day.abbreviation == name

theorem ofIndex_index (day : Weekday) : ofIndex day.index = day := by
  cases day <;> rfl

theorem index_lt (day : Weekday) : day.index < 7 := by
  cases day <;> decide

theorem index_ofIndex : ∀ {i : Nat}, i < 7 → (ofIndex i).index = i := by
  decide

theorem mem_all (day : Weekday) : day ∈ all := by
  cases day <;> decide

end Weekday

/-! ## The civil form -/

/-- The rule of the Gregorian calendar for leap years. -/
def isLeapYear (year : Int) : Bool :=
  year % 4 == 0 && (year % 100 != 0 || year % 400 == 0)

/-- The lengths of the twelve months. -/
def monthLengths (year : Int) : List Nat :=
  [31, if isLeapYear year then 29 else 28, 31, 30, 31, 30, 31, 31, 30, 31, 30, 31]

/-- The number of days before 1 January of a year. -/
def daysBeforeYear (year : Int) : Int :=
  let past := year - 1
  365 * past + past / 4 - past / 100 + past / 400

/-- A date in years, months and days, the first of each being 1. -/
structure Civil where
  year : Int
  month : Nat
  day : Nat
  deriving DecidableEq, Repr

namespace Civil

/-- The month exists, and the day exists in that month. -/
def isValid (c : Civil) : Bool :=
  1 ≤ c.month && 1 ≤ c.day && c.day ≤ (monthLengths c.year).getD (c.month - 1) 0

/-- The number of days before a month of the year. -/
def daysBeforeMonth (year : Int) (month : Nat) : Nat :=
  ((monthLengths year).take (month - 1)).foldr (· + ·) 0

/-- The number of a civil day. -/
def dayNumber (c : Civil) : Int :=
  daysBeforeYear c.year + daysBeforeMonth c.year c.month + c.day - 1

/-- The month and the day at a place in the year, counted from 0, given the months' lengths. -/
def monthAndDay : (lengths : List Nat) → (month place : Nat) → Nat × Nat
  | [], month, place => (month, place + 1)
  | length :: lengths, month, place =>
    if place < length then (month, place + 1)
    else monthAndDay lengths (month + 1) (place - length)

/-- The civil form of a day number.  A cycle of 400 years has 146097 days, a century 36524 or one
more, four years 1461 and a year 365 or one more; the odd day of a cycle or of four years belongs
to the last part of it. -/
def ofDayNumber (n : Int) : Civil :=
  let cycle := n / 146097
  let inCycle := (n % 146097).toNat
  let century := min 3 (inCycle / 36524)
  let inCentury := inCycle - century * 36524
  let four := inCentury / 1461
  let inFour := inCentury - four * 1461
  let single := min 3 (inFour / 365)
  let place := inFour - single * 365
  let year := 400 * cycle + ((100 * century + 4 * four + single : Nat) : Int) + 1
  let (month, day) := monthAndDay (monthLengths year) 1 place
  ⟨year, month, day⟩

/-- Years from 0 to 9999 have four digits; the others have a sign and at least four. -/
def yearText (year : Int) : List Char :=
  if 0 ≤ year ∧ year ≤ 9999 then padded 4 year.toNat
  else (if year < 0 then '-' else '+') :: padded 4 year.natAbs

/-- `YYYY-MM-DD`. -/
def text (c : Civil) : String :=
  String.ofList (yearText c.year ++ '-' :: padded 2 c.month ++ '-' :: padded 2 c.day)

/-- The year at the head of a text: with a sign any number of digits, without one at most four. -/
def year? (cs : List Char) : Option (Int × List Char) :=
  match dropBlanks cs with
  | '-' :: r => (number? r.length r).map fun (n, r) => (-(n : Int), r)
  | '+' :: r => (number? r.length r).map fun (n, r) => ((n : Int), r)
  | r => (number? 4 r).map fun (n, r) => ((n : Int), r)

/-- The hyphen between two parts of a date, which may have blanks around it. -/
def hyphen? (cs : List Char) : Option (List Char) :=
  match dropBlanks cs with
  | '-' :: r => some (dropBlanks r)
  | _ => none

/-- A year, a month and a day of one or two digits, in a text that holds nothing else. -/
def read? (cs : List Char) : Option Civil := do
  let (year, r) ← year? cs
  let r ← hyphen? r
  let (month, r) ← number? 2 r
  let r ← hyphen? r
  let (day, r) ← number? 2 r
  if dropBlanks r = [] then some ⟨year, month, day⟩ else none

end Civil

/-! ## Dates -/

/-- The day of `-262143-01-01`. -/
def firstDay : Int := -95746130

/-- The day of `+262142-12-31`. -/
def lastDay : Int := 95745398

/-- A day of the calendar. -/
structure Date where
  day : Int
  first_le : firstDay ≤ day
  le_last : day ≤ lastDay
  deriving DecidableEq

namespace Date

theorem ext {a b : Date} (h : a.day = b.day) : a = b := by
  cases a; cases b; cases h; rfl

instance : LE Date := ⟨fun a b => a.day ≤ b.day⟩
instance : LT Date := ⟨fun a b => a.day < b.day⟩

instance (a b : Date) : Decidable (a ≤ b) := inferInstanceAs (Decidable (a.day ≤ b.day))
instance (a b : Date) : Decidable (a < b) := inferInstanceAs (Decidable (a.day < b.day))

theorem le_def {a b : Date} : a ≤ b ↔ a.day ≤ b.day := Iff.rfl
theorem lt_def {a b : Date} : a < b ↔ a.day < b.day := Iff.rfl

/-- The last day the calendar can name. -/
def last : Date := ⟨lastDay, by decide, by decide⟩

/-- The date of a day number, if the calendar reaches so far. -/
def ofDay? (day : Int) : Option Date :=
  if h : firstDay ≤ day ∧ day ≤ lastDay then some ⟨day, h.1, h.2⟩ else none

theorem ofDay?_eq_some_iff {day : Int} {d : Date} : ofDay? day = some d ↔ d.day = day := by
  unfold ofDay?
  constructor
  · intro h
    split at h
    · rw [← Option.some.inj h]
    · simp at h
  · intro h
    subst h
    rw [dif_pos ⟨d.first_le, d.le_last⟩]

/-- The date of a civil form, if there is one. -/
def ofCivil? (c : Civil) : Option Date :=
  if c.isValid then ofDay? c.dayNumber else none

/-- Year, month and day of a date. -/
def civil (d : Date) : Civil :=
  Civil.ofDayNumber d.day

/-- The day of the week. -/
def weekday (d : Date) : Weekday :=
  Weekday.ofIndex (d.day % 7).toNat

/-- Weekdays go round with the day number. -/
theorem index_weekday (d : Date) : (d.weekday.index : Int) = d.day % 7 := by
  rw [weekday, Weekday.index_ofIndex (by omega)]
  omega

/-- The text of a date, `YYYY-MM-DD`. -/
def text (d : Date) : String :=
  d.civil.text

/-- The date a text names. -/
def read? (s : String) : Option Date :=
  (Civil.read? s.toList).bind ofCivil?

end Date
end TransitChanges.Calendar
