import TransitChanges.Bits.Bitmap

/-!
# Square bit matrices

A matrix of `n` rows, each a bitmap.  The rows of a matrix start with `n` columns; a row can grow
by being united with a larger bitmap, and then the other rows stay as they are.

A row that does not exist reads as empty.  The operations that need a row are given twice where a
caller can ask for one that is not there: with a question mark they refuse, without they leave the
matrix as it is.

* `get_eq_row`: a bit is a member of its row.
* `get_ofRows`: the bits of a matrix made of rows.
* `row_modifyRow`: changing a row leaves the others as they are.
* `mem_positions`: the listed positions.
* `get_ofPositions`, `get_inter`, `get_transpose`: the bits of other matrices.
-/

namespace TransitChanges.Bits

/-- A matrix with as many rows as its size says. -/
structure BitMatrix where
  size : Nat
  rows : Array Bitmap
  size_rows : rows.size = size
  deriving DecidableEq

namespace BitMatrix

/-- The matrix with given rows. -/
def ofRows (size : Nat) (row : Nat → Bitmap) : BitMatrix :=
  ⟨size, Array.ofFn fun i : Fin size => row i, Array.size_ofFn⟩

/-- The matrix without a bit. -/
def empty (size : Nat) : BitMatrix :=
  ofRows size fun _ => Bitmap.empty size

/-- The matrix with its diagonal. -/
def identity (size : Nat) : BitMatrix :=
  ofRows size fun i => (Bitmap.empty size).insert i

/-- A row, if the matrix has it. -/
def row? (m : BitMatrix) (row : Nat) : Option Bitmap :=
  m.rows[row]?

/-- A row; one that does not exist is empty. -/
def row (m : BitMatrix) (row : Nat) : Bitmap :=
  (m.row? row).getD (Bitmap.empty 0)

/-- Whether a bit is set.  No bit outside the matrix is. -/
def get (m : BitMatrix) (row column : Nat) : Bool :=
  (m.row row).get column

/-- The matrix with one row changed, and itself if it has no such row. -/
def modifyRow (m : BitMatrix) (row : Nat) (f : Bitmap → Bitmap) : BitMatrix :=
  ⟨m.size, m.rows.modify row f, by rw [Array.size_modify, m.size_rows]⟩

/-- The matrix with one more bit; a bit outside is left out. -/
def insert (m : BitMatrix) (row column : Nat) : BitMatrix :=
  m.modifyRow row (·.insert column)

/-- The matrix with one more bit, if it has room for it. -/
def insert? (m : BitMatrix) (row column : Nat) : Option BitMatrix :=
  if column < (m.row row).size then some (m.insert row column) else none

/-- The matrix with a row replaced by one of the matrix's size. -/
def replaceRow? (m : BitMatrix) (row : Nat) (bits : Bitmap) : Option BitMatrix :=
  if row < m.size ∧ bits.size = m.size then some (m.modifyRow row fun _ => bits) else none

/-- The matrix with a row cut down to a mask. -/
def andRow? (m : BitMatrix) (row : Nat) (mask : Bitmap) : Option BitMatrix :=
  if row < m.size then some (m.modifyRow row (·.and mask)) else none

/-- The matrix with a row united with a bitmap. -/
def orRow? (m : BitMatrix) (row : Nat) (bits : Bitmap) : Option BitMatrix :=
  if row < m.size then some (m.modifyRow row (·.or bits)) else none

/-- The set bits as rows and columns, row by row. -/
def positions (m : BitMatrix) : List (Nat × Nat) :=
  (List.range m.size).flatMap fun row => (m.row row).toList.map fun column => (row, column)

/-- The number of set bits. -/
def count (m : BitMatrix) : Nat :=
  m.rows.foldl (fun total row => total + row.card) 0

/-- The matrix of a list of positions; those outside are left out. -/
def ofPositions (size : Nat) (positions : List (Nat × Nat)) : BitMatrix :=
  positions.foldl (fun m (row, column) => m.insert row column) (empty size)

/-- The bits of both matrices. -/
def inter (a b : BitMatrix) : BitMatrix :=
  ofRows a.size fun row => (a.row row).and (b.row row)

/-- The matrix with rows and columns exchanged. -/
def transpose (m : BitMatrix) : BitMatrix :=
  ofPositions m.size (m.positions.map fun (row, column) => (column, row))

/-- How a matrix is shown. -/
def inspect (m : BitMatrix) : String :=
  "IndexedBitSet \x7b size: " ++ Text.numeral m.size ++ ", bits_set: " ++ Text.numeral m.count ++
    " \x7d"

/-! ## The bits of a matrix -/

@[simp] theorem size_ofRows (size : Nat) (f : Nat → Bitmap) : (ofRows size f).size = size := rfl

@[simp] theorem size_modifyRow (m : BitMatrix) (row : Nat) (f : Bitmap → Bitmap) :
    (m.modifyRow row f).size = m.size := rfl

@[simp] theorem size_insert (m : BitMatrix) (row column : Nat) :
    (m.insert row column).size = m.size := rfl

/-- A bit is a member of its row. -/
theorem get_eq_row (m : BitMatrix) (row column : Nat) :
    m.get row column = (m.row row).get column := rfl

theorem row?_ofRows (size : Nat) (f : Nat → Bitmap) (i : Nat) :
    (ofRows size f).row? i = if i < size then some (f i) else none := by
  simp only [row?, ofRows, Array.getElem?_ofFn]
  split <;> rfl

theorem row_ofRows {size : Nat} {f : Nat → Bitmap} {i : Nat} (h : i < size) :
    (ofRows size f).row i = f i := by
  rw [row, row?_ofRows, if_pos h]
  rfl

theorem get_ofRows (size : Nat) (f : Nat → Bitmap) (i j : Nat) :
    (ofRows size f).get i j = (decide (i < size) && (f i).get j) := by
  rw [get, row, row?_ofRows]
  by_cases h : i < size <;> simp [h]

@[simp] theorem get_empty (size i j : Nat) : (empty size).get i j = false := by
  rw [empty, get_ofRows, Bitmap.get_empty, Bool.and_false]

theorem row_of_size_le {m : BitMatrix} {i : Nat} (h : m.size ≤ i) : m.row i = Bitmap.empty 0 := by
  rw [row, row?, Array.getElem?_eq_none (by rw [m.size_rows]; exact h)]
  rfl

theorem lt_size_of_get {m : BitMatrix} {i j : Nat} (h : m.get i j = true) : i < m.size := by
  by_cases hi : i < m.size
  · exact hi
  · rw [get, row_of_size_le (Nat.le_of_not_lt hi), Bitmap.get_empty] at h
    exact absurd h (by decide)

theorem row_modifyRow (m : BitMatrix) (i : Nat) (f : Bitmap → Bitmap) (k : Nat) :
    (m.modifyRow i f).row k = if i = k ∧ k < m.size then f (m.row k) else m.row k := by
  rw [row, row, row?, row?, modifyRow, Array.getElem?_modify]
  by_cases hk : k < m.size
  · have hk' : k < m.rows.size := by rw [m.size_rows]; exact hk
    by_cases hi : i = k <;> simp [hi, hk, hk']
  · have hk' : ¬ k < m.rows.size := by rw [m.size_rows]; exact hk
    by_cases hi : i = k <;> simp [hi, hk, hk']

/-- The listed positions. -/
theorem mem_positions {m : BitMatrix} {i j : Nat} :
    (i, j) ∈ m.positions ↔ m.get i j = true := by
  simp only [positions, List.mem_flatMap, List.mem_range, List.mem_map, Prod.mk.injEq]
  constructor
  · rintro ⟨r, -, c, hc, rfl, rfl⟩
    exact Bitmap.mem_toList.mp hc
  · intro h
    exact ⟨i, lt_size_of_get h, j, Bitmap.mem_toList.mpr h, rfl, rfl⟩

theorem get_insert (m : BitMatrix) (row column i j : Nat) :
    (m.insert row column).get i j =
      (m.get i j || (decide (row = i ∧ column = j) && decide (j < (m.row i).size))) := by
  rw [get, insert, row_modifyRow, get_eq_row]
  by_cases hrow : row = i ∧ i < m.size
  · obtain ⟨rfl, hsize⟩ := hrow
    rw [if_pos ⟨rfl, hsize⟩, Bitmap.get_insert]
    by_cases hcolumn : column = j
    · subst hcolumn
      simp
    · simp [hcolumn]
  · rw [if_neg hrow]
    by_cases hi : row = i
    · subst hi
      rw [row_of_size_le (Nat.le_of_not_lt fun h => hrow ⟨rfl, h⟩)]
      simp
    · simp [hi]

theorem size_row_insert (m : BitMatrix) (row column i : Nat) :
    ((m.insert row column).row i).size = (m.row i).size := by
  rw [insert, row_modifyRow]
  split
  · rw [Bitmap.size_insert]
  · rfl

theorem get_foldl_insert (positions : List (Nat × Nat)) (m : BitMatrix) (i j : Nat) :
    (positions.foldl (fun m (row, column) => m.insert row column) m).get i j =
      (m.get i j || (positions.contains (i, j) && decide (j < (m.row i).size))) := by
  induction positions generalizing m with
  | nil => simp
  | cons p positions ih =>
    obtain ⟨row, column⟩ := p
    rw [List.foldl_cons, ih, size_row_insert, get_insert, List.contains_cons, Bool.or_assoc]
    congr 1
    have h : ((i, j) == (row, column)) = decide (row = i ∧ column = j) := by
      rw [Bool.eq_iff_iff, beq_iff_eq, Prod.mk.injEq, decide_eq_true_eq]
      exact and_congr eq_comm eq_comm
    rw [h]
    cases decide (row = i ∧ column = j) <;> cases positions.contains (i, j) <;> simp

theorem size_foldl_insert (positions : List (Nat × Nat)) (m : BitMatrix) :
    (positions.foldl (fun m (row, column) => m.insert row column) m).size = m.size := by
  induction positions generalizing m with
  | nil => rfl
  | cons p positions ih => rw [List.foldl_cons, ih, size_insert]

@[simp] theorem size_ofPositions (size : Nat) (positions : List (Nat × Nat)) :
    (ofPositions size positions).size = size :=
  size_foldl_insert positions (empty size)

/-- The bits of a matrix made of positions. -/
theorem get_ofPositions (size : Nat) (positions : List (Nat × Nat)) (i j : Nat) :
    (ofPositions size positions).get i j =
      (positions.contains (i, j) && (decide (i < size) && decide (j < size))) := by
  rw [ofPositions, get_foldl_insert, get_empty, Bool.false_or]
  congr 1
  by_cases hi : i < size
  · rw [empty, row_ofRows hi, Bitmap.size_empty, decide_eq_true hi, Bool.true_and]
  · rw [row_of_size_le (Nat.le_of_not_lt hi), decide_eq_false hi, Bool.false_and]
    rfl

@[simp] theorem get_inter (a b : BitMatrix) (i j : Nat) :
    (a.inter b).get i j = (a.get i j && b.get i j) := by
  rw [inter, get_ofRows, Bitmap.get_and, ← get_eq_row, ← get_eq_row]
  cases h : a.get i j with
  | false => simp
  | true => simp [lt_size_of_get h]

/-- The rows of a matrix are the columns of the transposed one. -/
theorem get_transpose {m : BitMatrix} {i j : Nat} (hi : i < m.size) :
    m.transpose.get i j = m.get j i := by
  rw [transpose, get_ofPositions, decide_eq_true hi, Bool.true_and, Bool.eq_iff_iff,
    Bool.and_eq_true, List.contains_iff_mem, decide_eq_true_eq, List.mem_map]
  constructor
  · rintro ⟨⟨⟨row, column⟩, hmem, heq⟩, -⟩
    cases heq
    exact mem_positions.mp hmem
  · intro h
    exact ⟨⟨(j, i), mem_positions.mpr h, rfl⟩, lt_size_of_get h⟩

end BitMatrix
end TransitChanges.Bits
