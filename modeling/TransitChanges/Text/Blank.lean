/-!
# Blank characters

The characters with the Unicode property `White_Space`, which readers of dates and times skip in
front of a number.  The table is complete, so a reader does not depend on which blanks a text
happens to use.

* `dropBlanks_eq_self`: a text that starts with no blank is left as it is.
* `head_dropBlanks`: what is left starts with no blank.
-/

namespace TransitChanges.Text

/-- Membership in the property `White_Space`. -/
def isBlank (c : Char) : Bool :=
  let n := c.toNat
  (0x9 ≤ n && n ≤ 0xD) || n == 0x20 || n == 0x85 || n == 0xA0 || n == 0x1680 ||
  (0x2000 ≤ n && n ≤ 0x200A) || n == 0x2028 || n == 0x2029 || n == 0x202F || n == 0x205F ||
  n == 0x3000

/-- The text after its leading blanks. -/
def dropBlanks (cs : List Char) : List Char :=
  cs.dropWhile isBlank

@[simp] theorem dropBlanks_nil : dropBlanks [] = [] := rfl

theorem dropBlanks_cons (c : Char) (cs : List Char) :
    dropBlanks (c :: cs) = if isBlank c then dropBlanks cs else c :: cs := by
  unfold dropBlanks
  rw [List.dropWhile_cons]

/-- A text that starts with no blank is left as it is. -/
theorem dropBlanks_eq_self {c : Char} {cs : List Char} (h : isBlank c = false) :
    dropBlanks (c :: cs) = c :: cs := by
  rw [dropBlanks_cons, h]
  rfl

/-- What is left starts with no blank. -/
theorem head_dropBlanks : ∀ {cs : List Char} {c : Char} {r : List Char},
    dropBlanks cs = c :: r → isBlank c = false
  | [], _, _, h => by simp at h
  | d :: cs, c, r, h => by
    rw [dropBlanks_cons] at h
    split at h
    · exact head_dropBlanks h
    · next hd =>
      obtain ⟨rfl, -⟩ := List.cons.inj h
      exact Bool.eq_false_iff.mpr hd

end TransitChanges.Text
