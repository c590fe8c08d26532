import TransitChanges.Text.Decimal

/-!
# Bitmaps

A bitmap is a set of indexes below a fixed size, held in the binary digits of one number, so that
the operations on whole sets are single operations on numbers.  The proof that no digit lies beyond
the size is part of the type; hence two bitmaps are equal exactly if they have one size and one set.

Bitmaps can be large and sparse.  So their indexes are found and counted, and bitmaps are made from
a test, by halving the range of indexes.

Operands may differ in size: `and` and `andNot` keep the size of the left one and `or` takes the
larger of both.

* `get_insert`, `get_and`, `get_or`, `get_andNot`, `get_ofPred`: what each operation does to the
  membership test, which is the one view of a bitmap.
* `ext_get`: equal sizes and equal membership make equal bitmaps.
* `toList_eq_filter`, `mem_toList`, `card_eq_length_toList`: the listed indexes and their number.
* `intersects_iff`: sharing an index.
-/

namespace TransitChanges.Bits

/-! ## Binary digits -/

theorem one_shiftLeft_mono {m n : Nat} (h : m ≤ n) : 1 <<< m ≤ 1 <<< n := by
  rw [Nat.one_shiftLeft, Nat.one_shiftLeft]
  exact Nat.pow_le_pow_right (by decide) h

/-- A number with one digit lies below every longer power of two. -/
theorem one_shiftLeft_lt {m n : Nat} (h : m < n) : 1 <<< m < 1 <<< n := by
  rw [Nat.one_shiftLeft, Nat.one_shiftLeft]
  exact Nat.pow_lt_pow_right (by decide) h

/-- Two numbers of `n` digits have `n` digits together. -/
theorem or_lt_one_shiftLeft {a b n : Nat} (ha : a < 1 <<< n) (hb : b < 1 <<< n) :
    a ||| b < 1 <<< n := by
  rw [Nat.one_shiftLeft] at ha hb ⊢
  exact Nat.or_lt_two_pow ha hb

/-- A number of `n` digits has none beyond them. -/
theorem testBit_eq_false_of_lt {a n : Nat} (h : a < 1 <<< n) : a.testBit n = false := by
  rw [Nat.one_shiftLeft] at h
  exact Nat.testBit_lt_two_pow h

/-- The only digit of a power of two. -/
theorem testBit_one_shiftLeft (i j : Nat) : (1 <<< i).testBit j = decide (i = j) := by
  rw [Nat.one_shiftLeft, Nat.testBit_two_pow]

/-! ## Digits by halves -/

/-- The number of digits that are looked at one by one. -/
def chunk : Nat := 32

/-- The number of digits after some doublings. -/
def width (k : Nat) : Nat :=
  chunk <<< k

/-- The doublings after which a number of digits has room. -/
def doublings (size : Nat) : Nat :=
  (size / chunk).log2 + 1

theorem width_succ (k : Nat) : width (k + 1) = width k + width k := by
  rw [width, width, Nat.shiftLeft_eq, Nat.shiftLeft_eq, Nat.pow_succ, ← Nat.mul_assoc,
    Nat.mul_two]

theorem lt_width_doublings (size : Nat) : size < width (doublings size) := by
  have h : size / chunk < 2 ^ doublings size := Nat.lt_log2_self
  rw [width, Nat.shiftLeft_eq, Nat.mul_comm]
  exact (Nat.div_lt_iff_lt_mul (by decide)).mp h

/-- The places of the digits 1 among the lowest `n` of a number, counted from an offset. -/
def lowPlaces : (n offset bits : Nat) → List Nat
  | 0, _, _ => []
  | n + 1, offset, bits =>
    if bits = 0 then []
    else if bits % 2 = 1 then offset :: lowPlaces n (offset + 1) (bits / 2)
    else lowPlaces n (offset + 1) (bits / 2)

/-- The places of the digits 1 among the lowest `width k` of a number, counted from an offset.  A
half of the number that is 0 is not looked into. -/
def places : (k offset bits : Nat) → List Nat
  | 0, offset, bits => lowPlaces chunk offset bits
  | k + 1, offset, bits =>
    if bits = 0 then []
    else
      let half := width k
      places k offset (bits &&& (1 <<< half - 1)) ++ places k (offset + half) (bits >>> half)

/-- The number of digits 1 among the lowest `n` of a number. -/
def lowCount : (n bits : Nat) → Nat
  | 0, _ => 0
  | n + 1, bits => if bits = 0 then 0 else bits % 2 + lowCount n (bits / 2)

/-- The number of digits 1 among the lowest `width k` of a number. -/
def countPlaces : (k bits : Nat) → Nat
  | 0, bits => lowCount chunk bits
  | k + 1, bits =>
    if bits = 0 then 0
    else
      let half := width k
      countPlaces k (bits &&& (1 <<< half - 1)) + countPlaces k (bits >>> half)

/-- The number whose `n` digits tell which indexes from an offset on pass a test. -/
def lowDigits (p : Nat → Bool) : (n offset : Nat) → Nat
  | 0, _ => 0
  | n + 1, offset => (p offset).toNat + 2 * lowDigits p n (offset + 1)

/-- The number whose `width k` digits tell which indexes from an offset on lie below a size and pass
a test. -/
def digits (size : Nat) (p : Nat → Bool) : (k offset : Nat) → Nat
  | 0, offset => lowDigits (fun i => i < size && p i) chunk offset
  | k + 1, offset =>
    if size ≤ offset then 0
    else
      let half := width k
      digits size p k offset ||| digits size p k (offset + half) <<< half

theorem lowPlaces_eq (n offset bits : Nat) :
    lowPlaces n offset bits =
      ((List.range n).filter bits.testBit).map fun i => offset + i := by
  induction n generalizing offset bits with
  | zero => rfl
  | succ n ih =>
    have htail : ((List.range n).map Nat.succ).filter bits.testBit =
        ((List.range n).filter (bits / 2).testBit).map Nat.succ := by
      rw [List.filter_map]
      congr 1
      exact List.filter_congr fun i _ => Nat.testBit_succ bits i
    have hmap : (fun i => offset + i) ∘ Nat.succ = fun i => offset + 1 + i :=
      funext fun i => by simp only [Function.comp_apply]; omega
    unfold lowPlaces
    rw [List.range_succ_eq_map, List.filter_cons, htail, ih, Nat.testBit_zero]
    split
    · next h =>
      subst h
      have hnone : (List.range n).filter (Nat.testBit (0 / 2)) = [] :=
        List.filter_eq_nil_iff.mpr fun i _ => by
          rw [Nat.zero_div, Nat.zero_testBit]
          exact Bool.false_ne_true
      rw [hnone]
      simp
    · split
      · next h => simp [h, List.map_map, hmap]
      · next h => simp [h, List.map_map, hmap]

theorem places_eq (k offset bits : Nat) :
    places k offset bits =
      ((List.range (width k)).filter bits.testBit).map fun i => offset + i := by
  induction k generalizing offset bits with
  | zero => exact lowPlaces_eq chunk offset bits
  | succ k ih =>
    unfold places
    split
    · next h =>
      subst h
      have hnone : (List.range (width (k + 1))).filter (Nat.testBit 0) = [] :=
        List.filter_eq_nil_iff.mpr fun i _ => by rw [Nat.zero_testBit]; exact Bool.false_ne_true
      rw [hnone, List.map_nil]
    · have hlow : (List.range (width k)).filter (bits &&& (1 <<< width k - 1)).testBit =
          (List.range (width k)).filter bits.testBit := by
        refine List.filter_congr fun i hi => ?_
        rw [Nat.testBit_and, Nat.one_shiftLeft, Nat.testBit_two_pow_sub_one,
          decide_eq_true (List.mem_range.mp hi), Bool.and_true]
      have hhigh : (bits >>> width k).testBit = bits.testBit ∘ fun i => width k + i :=
        funext fun i => Nat.testBit_shiftRight bits
      dsimp only
      rw [ih, ih, hlow, hhigh, width_succ, List.range_add, List.filter_append, List.map_append,
        List.filter_map, List.map_map]
      simp only [Function.comp_def, Nat.add_assoc]

theorem lowCount_eq (n offset bits : Nat) :
    lowCount n bits = (lowPlaces n offset bits).length := by
  induction n generalizing offset bits with
  | zero => rfl
  | succ n ih =>
    unfold lowCount lowPlaces
    rw [ih (offset + 1)]
    split
    · rfl
    · split
      · next h => rw [h, List.length_cons, Nat.add_comm]
      · next h => rw [Nat.mod_two_ne_one.mp h, Nat.zero_add]

/-- The digits that are counted are those that have a place. -/
theorem countPlaces_eq (k offset bits : Nat) :
    countPlaces k bits = (places k offset bits).length := by
  induction k generalizing offset bits with
  | zero => exact lowCount_eq chunk offset bits
  | succ k ih =>
    unfold countPlaces places
    split
    · rfl
    · dsimp only
      rw [List.length_append, ← ih, ← ih]

theorem testBit_lowDigits (p : Nat → Bool) (n offset i : Nat) :
    (lowDigits p n offset).testBit i = (decide (i < n) && p (offset + i)) := by
  induction n generalizing offset i with
  | zero => simp [lowDigits]
  | succ n ih =>
    unfold lowDigits
    cases i with
    | zero => cases p offset <;> simp [Nat.testBit_zero]
    | succ i =>
      have hdiv : ((p offset).toNat + 2 * lowDigits p n (offset + 1)) / 2 =
          lowDigits p n (offset + 1) := by
        cases p offset <;> simp only [Bool.toNat_false, Bool.toNat_true] <;> omega
      have hi : offset + 1 + i = offset + (i + 1) := by omega
      rw [Nat.testBit_succ, hdiv, ih, hi]
      simp

theorem testBit_digits (size : Nat) (p : Nat → Bool) (k offset i : Nat) :
    (digits size p k offset).testBit i =
      (decide (i < width k) && (decide (offset + i < size) && p (offset + i))) := by
  induction k generalizing offset i with
  | zero => exact testBit_lowDigits _ chunk offset i
  | succ k ih =>
    unfold digits
    rw [width_succ]
    split
    · next h =>
      have h' : ¬ offset + i < size := by omega
      rw [Nat.zero_testBit, decide_eq_false h', Bool.false_and, Bool.and_false]
    · dsimp only
      rw [Nat.testBit_or, ih, Nat.testBit_shiftLeft, ih]
      by_cases hi : i < width k
      · have h₁ : i < width k + width k := by omega
        have h₂ : ¬ width k ≤ i := by omega
        simp [hi, h₁, h₂]
      · have h₁ : width k ≤ i := by omega
        have h₂ : offset + width k + (i - width k) = offset + i := by omega
        have h₃ : i - width k < width k ↔ i < width k + width k := by omega
        simp [hi, h₁, h₂, h₃]

/-- A set of indexes below a size. -/
structure Bitmap where
  size : Nat
  bits : Nat
  bits_lt : bits < 1 <<< size
  deriving DecidableEq

namespace Bitmap

/-- The bitmap with no index. -/
def empty (size : Nat) : Bitmap :=
  ⟨size, 0, Nat.lt_of_lt_of_le Nat.zero_lt_one (one_shiftLeft_mono (Nat.zero_le size))⟩

/-- Whether an index is in the set.  No index beyond the size is. -/
def get (b : Bitmap) (index : Nat) : Bool :=
  decide (index < b.size) && b.bits.testBit index

/-- The set with one more index, which is left out if it is beyond the size. -/
def insert (b : Bitmap) (index : Nat) : Bitmap :=
  if h : index < b.size then
    ⟨b.size, b.bits ||| 1 <<< index, or_lt_one_shiftLeft b.bits_lt (one_shiftLeft_lt h)⟩
  else b

/-- The set with one more index, if the bitmap has room for it. -/
def insert? (b : Bitmap) (index : Nat) : Option Bitmap :=
  if index < b.size then some (b.insert index) else none

/-- The set of the indexes of a list; those beyond the size are left out. -/
def ofList (size : Nat) (indexes : List Nat) : Bitmap :=
  indexes.foldl insert (empty size)

/-- The set of the indexes of a list, if the bitmap has room for all of them. -/
def ofList? (size : Nat) (indexes : List Nat) : Option Bitmap :=
  if indexes.all (· < size) then some (ofList size indexes) else none

/-- The indexes below a size that pass a test. -/
def ofPred (size : Nat) (p : Nat → Bool) : Bitmap :=
  ⟨size, digits size p (doublings size) 0, by
    rw [Nat.one_shiftLeft]
    refine Nat.lt_pow_two_of_testBit _ fun i hi => ?_
    have h : ¬ 0 + i < size := by omega
    rw [testBit_digits, decide_eq_false h, Bool.false_and, Bool.and_false]⟩

/-- The indexes in both sets. -/
def and (a b : Bitmap) : Bitmap :=
  ⟨a.size, a.bits &&& b.bits, Nat.lt_of_le_of_lt Nat.and_le_left a.bits_lt⟩

/-- The indexes in either set. -/
def or (a b : Bitmap) : Bitmap :=
  ⟨max a.size b.size, a.bits ||| b.bits,
    or_lt_one_shiftLeft
      (Nat.lt_of_lt_of_le a.bits_lt (one_shiftLeft_mono (Nat.le_max_left _ _)))
      (Nat.lt_of_lt_of_le b.bits_lt (one_shiftLeft_mono (Nat.le_max_right _ _)))⟩

/-- The indexes in the left set alone. -/
def andNot (a b : Bitmap) : Bitmap :=
  ⟨a.size, a.bits &&& (a.bits ^^^ b.bits), Nat.lt_of_le_of_lt Nat.and_le_left a.bits_lt⟩

/-- The indexes of the set, ascending. -/
def toList (b : Bitmap) : List Nat :=
  places (doublings b.size) 0 b.bits

/-- The number of indexes. -/
def card (b : Bitmap) : Nat :=
  countPlaces (doublings b.size) b.bits

/-- Whether there is no index. -/
def isEmpty (b : Bitmap) : Bool :=
  b.bits == 0

/-- Whether two sets share an index. -/
def intersects (a b : Bitmap) : Bool :=
  a.bits &&& b.bits != 0

/-- How a bitmap is shown. -/
def inspect (b : Bitmap) : String :=
  "\x7b" ++ String.intercalate ", " (b.toList.map Text.numeral) ++ "\x7d"

/-! ## The membership test -/

theorem testBit_eq_get (b : Bitmap) (index : Nat) : b.bits.testBit index = b.get index := by
  unfold get
  by_cases h : index < b.size
  · simp [h]
  · have hlt : b.bits < 1 <<< index :=
      Nat.lt_of_lt_of_le b.bits_lt (one_shiftLeft_mono (Nat.le_of_not_lt h))
    simp [h, testBit_eq_false_of_lt hlt]

theorem lt_size_of_get {b : Bitmap} {index : Nat} (h : b.get index = true) : index < b.size := by
  unfold get at h
  simp only [Bool.and_eq_true, decide_eq_true_eq] at h
  exact h.1

@[simp] theorem get_empty (size index : Nat) : (empty size).get index = false := by
  simp [empty, get]

@[simp] theorem size_empty (size : Nat) : (empty size).size = size := rfl

@[simp] theorem size_insert (b : Bitmap) (index : Nat) : (b.insert index).size = b.size := by
  unfold insert
  split <;> rfl

/-- Equal sizes and equal membership make equal bitmaps. -/
theorem ext_get {a b : Bitmap} (hs : a.size = b.size) (h : ∀ i, a.get i = b.get i) : a = b := by
  have hb : a.bits = b.bits := Nat.eq_of_testBit_eq fun i => by
    rw [testBit_eq_get, testBit_eq_get, h]
  cases a; cases b
  cases hs; cases hb
  rfl

theorem get_insert (b : Bitmap) (index i : Nat) :
    (b.insert index).get i = (b.get i || (decide (index < b.size) && decide (index = i))) := by
  rw [← testBit_eq_get, ← testBit_eq_get]
  unfold insert
  by_cases h : index < b.size
  · rw [dif_pos h, Nat.testBit_or, testBit_one_shiftLeft]
    simp [h]
  · rw [dif_neg h]
    simp [h]

@[simp] theorem get_and (a b : Bitmap) (i : Nat) : (a.and b).get i = (a.get i && b.get i) := by
  rw [← testBit_eq_get, ← testBit_eq_get, ← testBit_eq_get]
  exact Nat.testBit_and ..

@[simp] theorem get_or (a b : Bitmap) (i : Nat) : (a.or b).get i = (a.get i || b.get i) := by
  rw [← testBit_eq_get, ← testBit_eq_get, ← testBit_eq_get]
  exact Nat.testBit_or ..

@[simp] theorem get_andNot (a b : Bitmap) (i : Nat) :
    (a.andNot b).get i = (a.get i && !b.get i) := by
  rw [← testBit_eq_get, ← testBit_eq_get, ← testBit_eq_get, andNot, Nat.testBit_and,
    Nat.testBit_xor]
  cases a.bits.testBit i <;> cases b.bits.testBit i <;> rfl

theorem size_foldl_insert (indexes : List Nat) (b : Bitmap) :
    (indexes.foldl insert b).size = b.size := by
  induction indexes generalizing b with
  | nil => rfl
  | cons i indexes ih => rw [List.foldl_cons, ih, size_insert]

theorem get_foldl_insert (indexes : List Nat) (b : Bitmap) (i : Nat) :
    (indexes.foldl insert b).get i = (b.get i || (decide (i < b.size) && indexes.contains i)) := by
  induction indexes generalizing b with
  | nil => simp
  | cons j indexes ih =>
    rw [List.foldl_cons, ih, get_insert, size_insert, List.contains_cons]
    by_cases hj : j = i
    · subst hj
      cases b.get j <;> simp +contextual
    · have hji : (i == j) = false := beq_eq_false_iff_ne.mpr (Ne.symm hj)
      simp [hj, hji]

@[simp] theorem size_ofList (size : Nat) (indexes : List Nat) :
    (ofList size indexes).size = size :=
  size_foldl_insert indexes _

theorem get_ofList (size : Nat) (indexes : List Nat) (i : Nat) :
    (ofList size indexes).get i = (decide (i < size) && indexes.contains i) := by
  rw [ofList, get_foldl_insert, get_empty, Bool.false_or, size_empty]

@[simp] theorem size_ofPred (size : Nat) (p : Nat → Bool) : (ofPred size p).size = size := rfl

theorem get_ofPred (size : Nat) (p : Nat → Bool) (i : Nat) :
    (ofPred size p).get i = (decide (i < size) && p i) := by
  rw [← testBit_eq_get, ofPred, testBit_digits, Nat.zero_add]
  by_cases h : i < size
  · rw [decide_eq_true (Nat.lt_trans h (lt_width_doublings size)), Bool.true_and]
  · rw [decide_eq_false h, Bool.false_and, Bool.and_false]

/-- The listed indexes are those that pass the membership test. -/
theorem toList_eq_filter (b : Bitmap) : b.toList = (List.range b.size).filter b.get := by
  have hget : b.bits.testBit = b.get := funext b.testBit_eq_get
  obtain ⟨more, hmore⟩ : ∃ more, width (doublings b.size) = b.size + more :=
    Nat.exists_eq_add_of_le (Nat.le_of_lt (lt_width_doublings b.size))
  have hnone : ((List.range more).map fun i => b.size + i).filter b.get = [] := by
    refine List.filter_eq_nil_iff.mpr fun i hi hg => ?_
    obtain ⟨j, _, rfl⟩ := List.mem_map.mp hi
    have := lt_size_of_get hg
    omega
  rw [toList, places_eq, hget, hmore, List.range_add, List.filter_append, hnone,
    List.append_nil]
  simp

/-- The listed indexes. -/
theorem mem_toList {b : Bitmap} {i : Nat} : i ∈ b.toList ↔ b.get i = true := by
  rw [toList_eq_filter, List.mem_filter, List.mem_range]
  exact and_iff_right_of_imp lt_size_of_get

/-- The indexes are listed in ascending order, each once. -/
theorem pairwise_toList (b : Bitmap) : b.toList.Pairwise (· < ·) := by
  rw [toList_eq_filter]
  exact List.pairwise_lt_range.filter _

/-- As many indexes as are listed. -/
theorem card_eq_length_toList (b : Bitmap) : b.card = b.toList.length :=
  countPlaces_eq _ _ _

theorem isEmpty_iff {b : Bitmap} : b.isEmpty = true ↔ ∀ i, b.get i = false := by
  rw [isEmpty, beq_iff_eq]
  constructor
  · intro h i
    rw [← testBit_eq_get, h, Nat.zero_testBit]
  · intro h
    exact Nat.eq_of_testBit_eq fun i => by rw [testBit_eq_get, h, Nat.zero_testBit]

/-- Sharing an index. -/
theorem intersects_iff {a b : Bitmap} :
    a.intersects b = true ↔ ∃ i, a.get i = true ∧ b.get i = true := by
  have h : a.intersects b = !(a.and b).isEmpty := rfl
  rw [h, Bool.not_eq_true', ← Bool.not_eq_true, isEmpty_iff]
  simp [Classical.not_forall]

end Bitmap
end TransitChanges.Bits
