/-!
# Numbers of changes

The answer to most questions is a number of changes, or that no number is enough.  Not getting there
is the largest answer, so the best of several answers is the least of them.

Changes are counted below a ceiling, the largest number that there is a place for.  It stands for
not getting there, so changes that come to it when they are added up lead nowhere (`counted`).

* `le_total`, `le_trans`, `le_antisymm`: answers are linearly ordered.
* `fewer_le_iff`, `more_le_iff`: the better and the worse of two answers.
* `fewer_unreachable`: not getting there never is the better answer.
* `counted_add`: changes are counted one after the other or all at once.
-/

namespace TransitChanges

/-- A number of changes, or that none is enough. -/
inductive Changes where
  | exactly (n : Nat)
  | unreachable
  deriving DecidableEq

namespace Changes

/-- Fewer changes are less, and every number of them is less than not getting there. -/
def le : Changes → Changes → Bool
  | _, unreachable => true
  | exactly m, exactly n => m ≤ n
  | unreachable, exactly _ => false

instance : LE Changes := ⟨fun a b => a.le b = true⟩

instance (a b : Changes) : Decidable (a ≤ b) := inferInstanceAs (Decidable (a.le b = true))

/-- The better of two numbers. -/
def fewer (a b : Changes) : Changes :=
  if a ≤ b then a else b

/-- The worse of two numbers. -/
def more (a b : Changes) : Changes :=
  if a ≤ b then b else a

/-- The number that stands for not getting there. -/
def ceiling : Nat := 4294967295

/-- As many changes as a number tells, if it is below the ceiling. -/
def counted (n : Nat) : Changes :=
  if n < ceiling then exactly n else unreachable

/-- The changes of two parts one after the other. -/
def add : Changes → Changes → Changes
  | exactly m, exactly n => counted (m + n)
  | _, _ => unreachable

/-- An answer made worse by a number of changes. -/
def plus : Changes → Nat → Changes
  | exactly m, n => exactly (m + n)
  | unreachable, _ => unreachable

/-! ## Order -/

theorem le_def {a b : Changes} : a ≤ b ↔ a.le b = true := Iff.rfl

theorem le_refl (a : Changes) : a ≤ a := by
  cases a <;> simp [le_def, le]

theorem le_trans {a b c : Changes} (hab : a ≤ b) (hbc : b ≤ c) : a ≤ c := by
  cases a <;> cases b <;> cases c <;> simp_all [le_def, le]
  omega

theorem le_antisymm {a b : Changes} (hab : a ≤ b) (hba : b ≤ a) : a = b := by
  cases a <;> cases b <;> simp_all [le_def, le]
  omega

theorem le_total (a b : Changes) : a ≤ b ∨ b ≤ a := by
  cases a <;> cases b <;> simp [le_def, le]
  omega

theorem le_unreachable (a : Changes) : a ≤ unreachable := by
  cases a <;> rfl

theorem exactly_zero_le (a : Changes) : exactly 0 ≤ a := by
  cases a with
  | exactly n => exact decide_eq_true (Nat.zero_le n)
  | unreachable => rfl

/-- The better of two answers is as good as an answer if one of them is. -/
theorem fewer_le_iff {a b c : Changes} : a.fewer b ≤ c ↔ a ≤ c ∨ b ≤ c := by
  unfold fewer
  split
  · next hab => exact ⟨.inl, fun h => h.elim id (le_trans hab)⟩
  · next hab =>
    have hba := (le_total a b).resolve_left hab
    exact ⟨.inr, fun h => h.elim (le_trans hba) id⟩

/-- The worse of two answers is as good as an answer if both of them are. -/
theorem more_le_iff {a b c : Changes} : a.more b ≤ c ↔ a ≤ c ∧ b ≤ c := by
  unfold more
  split
  · next hab => exact ⟨fun h => ⟨le_trans hab h, h⟩, And.right⟩
  · next hab =>
    have hba := (le_total a b).resolve_left hab
    exact ⟨fun h => ⟨h, le_trans hba h⟩, And.left⟩

/-- The worse of two answers is one of them. -/
theorem more_eq_or (a b : Changes) : a.more b = a ∨ a.more b = b := by
  unfold more
  split
  · exact .inr rfl
  · exact .inl rfl

theorem eq_unreachable_of_le {c : Changes} (h : unreachable ≤ c) : c = unreachable :=
  le_antisymm (le_unreachable c) h

theorem exactly_le_iff {m n : Nat} : exactly m ≤ exactly n ↔ m ≤ n := by
  rw [le_def, le, decide_eq_true_eq]

/-- Two parts lead nowhere if the first one does. -/
theorem unreachable_add (a : Changes) : unreachable.add a = unreachable := by
  cases a <;> rfl

/-- Two parts lead nowhere if the second one does. -/
theorem add_unreachable (a : Changes) : a.add unreachable = unreachable := by
  cases a <;> rfl

/-- Not getting there never is the better answer. -/
@[simp] theorem fewer_unreachable (a : Changes) : a.fewer unreachable = a := by
  rw [fewer, if_pos (le_unreachable a)]

/-! ## Counting -/

theorem counted_of_lt {n : Nat} (h : n < ceiling) : counted n = exactly n :=
  if_pos h

theorem counted_of_le {n : Nat} (h : ceiling ≤ n) : counted n = unreachable :=
  if_neg (Nat.not_lt.mpr h)

/-- Changes are counted one after the other or all at once. -/
theorem counted_add (m n : Nat) : (counted m).add (counted n) = counted (m + n) := by
  rcases Nat.lt_or_ge m ceiling with hm | hm
  · rcases Nat.lt_or_ge n ceiling with hn | hn
    · rw [counted_of_lt hm, counted_of_lt hn, add]
    · rw [counted_of_le hn, add_unreachable, counted_of_le (Nat.le_add_left_of_le hn)]
  · rw [counted_of_le hm, unreachable_add, counted_of_le (Nat.le_add_right_of_le hm)]

/-- More changes do not count as fewer. -/
theorem counted_le_counted {m n : Nat} (h : m ≤ n) : counted m ≤ counted n := by
  rcases Nat.lt_or_ge n ceiling with hn | hn
  · rw [counted_of_lt hn, counted_of_lt (Nat.lt_of_le_of_lt h hn), exactly_le_iff]
    exact h
  · rw [counted_of_le hn]
    exact le_unreachable _

end Changes
end TransitChanges
