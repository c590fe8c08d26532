import TransitChanges.Fault

/-!
# Sets of weekdays

The weekdays on which a route runs are seven bits, Monday lowest.  A set that is read or listed has
at least one day; an intersection may have none.

* `contains_inter`: the days of an intersection.
* `contains_ofList`: the days of a list.
* `ofMask_toNat`: a set reads back from its mask.
-/

namespace TransitChanges.Calendar

/-- A set of weekdays. -/
structure DaySet where
  mask : BitVec 7
  deriving DecidableEq

namespace DaySet

/-- Whether a day is in the set. -/
def contains (s : DaySet) (day : Weekday) : Bool :=
  s.mask.getLsbD day.index

/-- Every day of the week. -/
def all : DaySet := ⟨0b1111111⟩

/-- Monday to Friday. -/
def weekdays : DaySet := ⟨0b0011111⟩

/-- Saturday and Sunday. -/
def weekends : DaySet := ⟨0b1100000⟩

/-- The days in both sets. -/
def inter (s t : DaySet) : DaySet :=
  ⟨s.mask &&& t.mask⟩

/-- Whether the set has no day. -/
def isEmpty (s : DaySet) : Bool :=
  s.mask == 0

/-- Whether the set has every day. -/
def isAll (s : DaySet) : Bool :=
  s == all

/-- The set with one more day. -/
def insert (s : DaySet) (day : Weekday) : DaySet :=
  ⟨s.mask ||| (1#7 <<< day.index)⟩

/-- The set of the days of a list. -/
def ofList (days : List Weekday) : DaySet :=
  days.foldl insert ⟨0⟩

/-- The days of the set, in the order of the week. -/
def toList (s : DaySet) : List Weekday :=
  Weekday.all.filter s.contains

/-- The set of the days of a list, of which there has to be one. -/
def ofList? (days : List Weekday) : Except Fault DaySet :=
  if days = [] then .error .noDays else .ok (ofList days)

/-- The set with a mask of eight bits, of which the highest has to be clear. -/
def ofMask? (mask : Nat) : Except Fault DaySet :=
  if mask = 0 then .error .noDays
  else if mask < 128 then .ok ⟨BitVec.ofNat 7 mask⟩
  else .error (.daysUnknown mask)

/-- How a set is shown. -/
def inspect (s : DaySet) : String :=
  "DaysOfWeek(" ++ String.intercalate "," (s.toList.map Weekday.abbreviation) ++ ")"

theorem ext {s t : DaySet} (h : ∀ day, s.contains day = t.contains day) : s = t := by
  obtain ⟨s⟩ := s
  obtain ⟨t⟩ := t
  congr 1
  apply BitVec.eq_of_getLsbD_eq
  intro i hi
  have hd := h (Weekday.ofIndex i)
  rwa [contains, contains, Weekday.index_ofIndex hi] at hd

@[simp] theorem contains_inter (s t : DaySet) (day : Weekday) :
    (s.inter t).contains day = (s.contains day && t.contains day) :=
  BitVec.getLsbD_and

@[simp] theorem contains_empty (day : Weekday) : (DaySet.mk 0).contains day = false := by
  cases day <;> rfl

@[simp] theorem contains_all (day : Weekday) : all.contains day = true := by
  cases day <;> rfl

theorem contains_insert (s : DaySet) (d day : Weekday) :
    (s.insert d).contains day = (s.contains day || decide (d = day)) := by
  unfold insert contains
  rw [BitVec.getLsbD_or]
  congr 1
  cases d <;> cases day <;> decide

theorem contains_foldl_insert (days : List Weekday) (s : DaySet) (day : Weekday) :
    (days.foldl insert s).contains day = (s.contains day || days.contains day) := by
  induction days generalizing s with
  | nil => simp
  | cons d days ih =>
    rw [List.foldl_cons, ih, contains_insert, List.contains_cons, Bool.or_assoc]
    congr 2
    cases d <;> cases day <;> decide

/-- The days of a list. -/
theorem contains_ofList (days : List Weekday) (day : Weekday) :
    (ofList days).contains day = days.contains day := by
  rw [ofList, contains_foldl_insert, contains_empty, Bool.false_or]

/-- A set with some day reads back from its mask. -/
theorem ofMask_toNat {s : DaySet} (h : s.isEmpty = false) : ofMask? s.mask.toNat = .ok s := by
  have hne : s.mask.toNat ≠ 0 := by
    intro h0
    rw [isEmpty, beq_eq_false_iff_ne] at h
    exact h (BitVec.eq_of_toNat_eq h0)
  rw [ofMask?, if_neg hne, if_pos s.mask.isLt, BitVec.ofNat_toNat, BitVec.setWidth_eq]

end DaySet
end TransitChanges.Calendar
