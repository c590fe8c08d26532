import Mathlib.Tactic.SplitIfs
import TransitChanges.Identifier

/-!
# Names in the order of their bytes

Names are compared character by character, and stored as bytes.  UTF-8 keeps the order: where two
characters differ, the bytes of the earlier one are smaller at the first place where they differ,
and neither begins with the other.  So it does not matter whether names are sorted before or after
they are written down.

* `Text.bytes_lt_iff`: the order of texts is that of their bytes.
* `Name.le_iff_bytes_le`: the order of names.
-/

namespace TransitChanges

namespace Text

/-- The bytes of a text. -/
def bytes (s : String) : List UInt8 :=
  s.toUTF8.data.toList

theorem bytes_eq_flatMap (s : String) : bytes s = s.toList.flatMap String.utf8EncodeChar := by
  have hbytes : s.toUTF8 = s.toList.utf8Encode := String.utf8Encode_toList.symm
  rw [bytes, hbytes, List.utf8Encode, List.toList_data_toByteArray]

theorem toNat_val_lt (c : Char) : c.val.toNat < 0x110000 := by
  have hvalid := c.valid
  unfold UInt32.isValidChar Nat.isValidChar at hvalid
  omega

theorem cons_ofNat_lt_iff {a b : Nat} (ha : a < 256) (hb : b < 256) (l m : List UInt8) :
    UInt8.ofNat a :: l < UInt8.ofNat b :: m ↔ a < b ∨ a = b ∧ l < m := by
  rw [List.cons_lt_cons_iff, UInt8.lt_iff_toNat_lt, ← UInt8.toNat_inj,
    UInt8.toNat_ofNat_of_lt' ha, UInt8.toNat_ofNat_of_lt' hb]

theorem append_lt_append_iff (bytes l m : List UInt8) : bytes ++ l < bytes ++ m ↔ l < m := by
  induction bytes with
  | nil => rfl
  | cons b bytes ih => simp [ih]

/-- The bytes of an earlier character come first, whatever follows them. -/
theorem utf8EncodeChar_append_lt {c d : Char} (h : c < d) (l m : List UInt8) :
    String.utf8EncodeChar c ++ l < String.utf8EncodeChar d ++ m := by
  have hlt : c.val.toNat < d.val.toNat := h
  have hc := toNat_val_lt c
  have hd := toNat_val_lt d
  unfold String.utf8EncodeChar
  generalize c.val.toNat = v at *
  generalize d.val.toNat = w at *
  -- every byte after the first holds one digit in base 64
  have hthird (n : Nat) : n / 4096 = n / 64 / 64 := by omega
  have hfourth (n : Nat) : n / 262144 = n / 64 / 64 / 64 := by omega
  simp only [hthird, hfourth]
  -- the widths of the two, of which the first byte tells the larger
  split_ifs <;>
    simp (disch := omega) only [List.cons_append, List.nil_append, cons_ofNat_lt_iff] <;> omega

theorem flatMap_utf8EncodeChar_lt_iff (cs ds : List Char) :
    cs.flatMap String.utf8EncodeChar < ds.flatMap String.utf8EncodeChar ↔ cs < ds := by
  have hfirst (c : Char) (cs : List Char) :
      [] < (c :: cs).flatMap String.utf8EncodeChar := by
    cases hbytes : (c :: cs).flatMap String.utf8EncodeChar with
    | nil =>
      rw [List.flatMap_cons, List.append_eq_nil_iff] at hbytes
      exact absurd hbytes.1 String.utf8EncodeChar_ne_nil
    | cons => exact List.nil_lt_cons ..
  induction cs generalizing ds with
  | nil =>
    cases ds with
    | nil => simp
    | cons d ds => exact iff_of_true (hfirst d ds) (List.nil_lt_cons ..)
  | cons c cs ih =>
    cases ds with
    | nil => exact iff_of_false (List.not_lt_nil _) (List.not_lt_nil _)
    | cons d ds =>
      rw [List.cons_lt_cons_iff, List.flatMap_cons, List.flatMap_cons]
      rcases Nat.lt_trichotomy c.val.toNat d.val.toNat with hlt | heq | hgt
      · exact iff_of_true (utf8EncodeChar_append_lt hlt ..) (.inl hlt)
      · obtain rfl : c = d := Char.ext (UInt32.toNat_inj.mp heq)
        rw [append_lt_append_iff]
        constructor
        · exact fun h => .inr ⟨rfl, (ih ds).mp h⟩
        · rintro (hlt | ⟨-, h⟩)
          · exact absurd hlt (Nat.lt_irrefl _)
          · exact (ih ds).mpr h
      · refine iff_of_false (List.lt_asymm (utf8EncodeChar_append_lt hgt ..)) ?_
        rintro (hlt | ⟨rfl, -⟩)
        · exact Nat.lt_asymm hlt hgt
        · exact Nat.lt_irrefl _ hgt

/-- **The order of texts is that of their bytes.** -/
theorem bytes_lt_iff {s t : String} : bytes s < bytes t ↔ s < t := by
  rw [bytes_eq_flatMap, bytes_eq_flatMap, flatMap_utf8EncodeChar_lt_iff, String.lt_iff]

end Text

namespace Name

variable {kind : NameKind}

/-- The bytes of a name. -/
def bytes (a : Name kind) : List UInt8 :=
  Text.bytes a.text

/-- **Names are in the order of their bytes.** -/
theorem le_iff_bytes_le {a b : Name kind} : a.le b = true ↔ a.bytes ≤ b.bytes := by
  have hcompare : compare a b = compareOfLessAndEq a.text b.text := rfl
  rw [← List.not_lt, bytes, bytes, Text.bytes_lt_iff, le, hcompare,
    isLE_compareOfLessAndEq String.le_antisymm String.not_le String.le_total]
  exact String.not_lt.symm

end Name
end TransitChanges
