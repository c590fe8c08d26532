import TransitChanges.Fault

/-!
# Windows of time

A window is the part of one day between two times, both included.  A window that is read from text
ends no earlier than it starts.  A window of a given length ends with the last whole second of the
day where the length would lead past it, even if the start lies in the fraction behind that second;
so the order of the two ends is a property (`Window.IsValid`) and not part of the type.

* `valid_of_between`: what `between` accepts is valid.
* `overlaps_comm`: sharing a time is symmetric.
-/

namespace TransitChanges.Clock

/-- The times of a day from one to another. -/
structure Window where
  start : Time
  finish : Time
  deriving DecidableEq

namespace Window

/-- A window ends no earlier than it starts. -/
def IsValid (w : Window) : Prop := w.start ≤ w.finish

instance (w : Window) : Decidable w.IsValid :=
  inferInstanceAs (Decidable (w.start ≤ w.finish))

/-- The window between two times, which have to be in order. -/
def between (start finish : Time) : Except Fault Window :=
  if start ≤ finish then .ok ⟨start, finish⟩ else .error (.timesReversed start finish)

/-- The time that a text `HH:MM` names. -/
def readTime (s : String) : Except Fault Time :=
  match Time.read? s with
  | some t => .ok t
  | none => .error (.notATime s)

/-- The window between two texts `HH:MM`; the first is read first. -/
def read (start finish : String) : Except Fault Window := do
  let start ← readTime start
  let finish ← readTime finish
  between start finish

/-- The window that starts at a time and lasts for a span, cut off at the end of the day. -/
def lasting (start : Time) (span : Span) : Window :=
  let (finish, carried) := start.add span
  if carried = 0 ∧ start ≤ finish then ⟨start, finish⟩ else ⟨start, .lastSecond⟩

/-- The whole day. -/
def allDay : Window := ⟨.midnight, .lastSecond⟩

/-- Whether a time lies in the window. -/
def contains (w : Window) (t : Time) : Bool :=
  w.start ≤ t && t ≤ w.finish

/-- Whether the time a text names lies in the window.  No other text does. -/
def containsText (w : Window) (s : String) : Bool :=
  match Time.read? s with
  | some t => w.contains t
  | none => false

/-- Whether two windows share a time. -/
def overlaps (v w : Window) : Bool :=
  v.start ≤ w.finish && w.start ≤ v.finish

/-- `HH:MM-HH:MM`. -/
def text (w : Window) : String :=
  String.ofList (w.start.hourMinute ++ '-' :: w.finish.hourMinute)

/-- How a window is shown. -/
def inspect (w : Window) : String :=
  "TimeRange(" ++ w.text ++ ")"

/-- What `between` accepts is valid. -/
theorem valid_of_between {start finish : Time} {w : Window} (h : between start finish = .ok w) :
    w.IsValid := by
  unfold between at h
  split at h
  · next hle =>
    injection h with h
    subst h
    exact hle
  · cases h

theorem overlaps_comm (v w : Window) : v.overlaps w = w.overlaps v :=
  Bool.and_comm _ _

end Window
end TransitChanges.Clock
