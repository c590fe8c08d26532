import Mathlib.Data.Finset.Prod
import Mathlib.Data.Finset.Union
import TransitChanges.Proofs.BitCount

/-!
# Bitmaps and matrices as finite sets

A bitmap stands for a finite set of indexes below its size, and a matrix whose rows are as long as
it has rows (`BitMatrix.IsSquare`) stands for a finite set of places in a square.  Every operation on
the digits is the operation on the sets that it is named for: the sets here (`SizedSet`, `Grid`) are
what bitmaps and matrices are meant to be, and refuse what these refuse.

A row of a matrix is changed by whatever is done to its bitmap, and the other rows stay
(`BitMatrix.grid_modifyRow`).  As long as the new row has the size of the matrix, the matrix stays
square.

* `Bitmap.sized_and`, `Bitmap.sized_or`, `Bitmap.sized_andNot`: the operations on sets.
* `BitMatrix.IsSquare.ext_get`: a square matrix is told by its bits.
* `BitMatrix.grid_modifyRow`: changing a row.
-/

namespace TransitChanges.Bits

/-! ## Sets of indexes -/

/-- A finite set of indexes with a size. -/
@[ext] structure SizedSet where
  size : Nat
  members : Finset Nat

namespace SizedSet

/-- The set of no index. -/
def empty (size : Nat) : SizedSet := ⟨size, ∅⟩

/-- The set with one more index, which has to be below the size. -/
def insert? (s : SizedSet) (index : Nat) : Option SizedSet :=
  if index < s.size then some ⟨s.size, insert index s.members⟩ else none

/-- The set of some indexes, which have to be below the size. -/
def ofList? (size : Nat) (indexes : List Nat) : Option SizedSet :=
  if ∀ index ∈ indexes, index < size then some ⟨size, indexes.toFinset⟩ else none

/-- The indexes in both sets. -/
def and (s t : SizedSet) : SizedSet := ⟨s.size, s.members ∩ t.members⟩

/-- The indexes in either set. -/
def or (s t : SizedSet) : SizedSet := ⟨max s.size t.size, s.members ∪ t.members⟩

/-- The indexes in the left set alone. -/
def andNot (s t : SizedSet) : SizedSet := ⟨s.size, s.members \ t.members⟩

end SizedSet

namespace Bitmap

/-- The indexes of a bitmap. -/
def toFinset (b : Bitmap) : Finset Nat :=
  b.toList.toFinset

@[simp] theorem mem_toFinset {b : Bitmap} {i : Nat} : i ∈ b.toFinset ↔ b.get i = true := by
  rw [toFinset, List.mem_toFinset, mem_toList]

theorem card_toFinset (b : Bitmap) : b.toFinset.card = b.card := by
  have hnodup : b.toList.Nodup := b.pairwise_toList.imp Nat.ne_of_lt
  rw [toFinset, List.toFinset_card_of_nodup hnodup, card_eq_length_toList]

/-- A bitmap is the one of its indexes. -/
theorem ofList_toList (b : Bitmap) : ofList b.size b.toList = b := by
  refine ext_get (size_ofList ..) fun i => ?_
  rw [get_ofList, Bool.eq_iff_iff, Bool.and_eq_true, decide_eq_true_eq, List.contains_iff_mem,
    mem_toList]
  exact and_iff_right_of_imp lt_size_of_get

/-- The set that a bitmap stands for. -/
def sized (b : Bitmap) : SizedSet := ⟨b.size, b.toFinset⟩

@[simp] theorem size_sized (b : Bitmap) : b.sized.size = b.size := rfl

theorem mem_sized {b : Bitmap} {i : Nat} : i ∈ b.sized.members ↔ b.get i = true :=
  mem_toFinset

theorem sized_empty (size : Nat) : (empty size).sized = .empty size :=
  SizedSet.ext rfl (Finset.ext fun i => by simp [sized, SizedSet.empty])

theorem sized_insert? (b : Bitmap) (index : Nat) :
    (b.insert? index).map sized = b.sized.insert? index := by
  rw [insert?, SizedSet.insert?, size_sized]
  split
  · next h =>
    refine congrArg some (SizedSet.ext (size_insert b index) (Finset.ext fun i => ?_))
    rw [mem_sized, get_insert, Finset.mem_insert, mem_sized, Bool.or_eq_true, Bool.and_eq_true,
      decide_eq_true_eq, decide_eq_true_eq, and_iff_right h, or_comm, eq_comm (a := i)]
  · rfl

theorem sized_ofList? (size : Nat) (indexes : List Nat) :
    (ofList? size indexes).map sized = SizedSet.ofList? size indexes := by
  unfold ofList? SizedSet.ofList?
  simp only [List.all_eq_true, decide_eq_true_eq]
  split
  · next h =>
    refine congrArg some (SizedSet.ext (size_ofList ..) (Finset.ext fun i => ?_))
    rw [mem_sized, get_ofList, Bool.and_eq_true, decide_eq_true_eq, List.contains_iff_mem,
      List.mem_toFinset]
    exact and_iff_right_of_imp (h i)
  · rfl

theorem sized_and (a b : Bitmap) : (a.and b).sized = a.sized.and b.sized :=
  SizedSet.ext rfl (Finset.ext fun i => by simp [sized, SizedSet.and])

theorem sized_or (a b : Bitmap) : (a.or b).sized = a.sized.or b.sized :=
  SizedSet.ext rfl (Finset.ext fun i => by simp [sized, SizedSet.or])

theorem sized_andNot (a b : Bitmap) : (a.andNot b).sized = a.sized.andNot b.sized :=
  SizedSet.ext rfl (Finset.ext fun i => by simp [sized, SizedSet.andNot])

end Bitmap

/-! ## Square matrices -/

namespace BitMatrix

/-- Matrices with the same rows are equal. -/
theorem ext_row? {a b : BitMatrix} (h : ∀ i, a.row? i = b.row? i) : a = b := by
  obtain ⟨_, rowsA, rfl⟩ := a
  obtain ⟨_, rowsB, rfl⟩ := b
  obtain rfl : rowsA = rowsB := Array.ext_getElem? h
  rfl

/-- Every row has as many columns as the matrix has rows. -/
def IsSquare (m : BitMatrix) : Prop :=
  ∀ i < m.size, (m.row i).size = m.size

variable {m : BitMatrix}

theorem row?_of_lt {i : Nat} (h : i < m.size) : m.row? i = some (m.row i) := by
  obtain ⟨_, rows, rfl⟩ := m
  rw [row, row?, Array.getElem?_eq_getElem h]
  rfl

theorem row?_of_size_le {i : Nat} (h : m.size ≤ i) : m.row? i = none :=
  Array.getElem?_eq_none (by rw [m.size_rows]; exact h)

theorem isSquare_ofRows {size : Nat} {f : Nat → Bitmap} (h : ∀ i < size, (f i).size = size) :
    (ofRows size f).IsSquare := by
  intro i hi
  rw [size_ofRows] at hi ⊢
  rw [row_ofRows hi]
  exact h i hi

theorem isSquare_empty (size : Nat) : (empty size).IsSquare :=
  isSquare_ofRows fun _ _ => rfl

theorem isSquare_identity (size : Nat) : (identity size).IsSquare :=
  isSquare_ofRows fun _ _ => Bitmap.size_insert ..

/-- A square matrix stays square if a row is changed to another of its size. -/
theorem IsSquare.modifyRow (h : m.IsSquare) {row : Nat} {f : Bitmap → Bitmap}
    (hf : row < m.size → (f (m.row row)).size = m.size) : (m.modifyRow row f).IsSquare := by
  intro i hi
  rw [size_modifyRow] at hi ⊢
  rw [row_modifyRow]
  split
  · next hrow =>
    obtain ⟨rfl, -⟩ := hrow
    exact hf hi
  · exact h i hi

theorem IsSquare.foldl_insert (h : m.IsSquare) (positions : List (Nat × Nat)) :
    (positions.foldl (fun m (row, column) => m.insert row column) m).IsSquare := by
  induction positions generalizing m with
  | nil => exact h
  | cons p positions ih =>
    refine ih fun i hi => ?_
    rw [size_row_insert]
    exact h i hi

theorem isSquare_ofPositions (size : Nat) (positions : List (Nat × Nat)) :
    (ofPositions size positions).IsSquare :=
  (isSquare_empty size).foldl_insert positions

/-- Two matrices of one size are equal if they have the same bits. -/
theorem IsSquare.ext_get {a b : BitMatrix} (ha : a.IsSquare) (hb : b.IsSquare)
    (hsize : a.size = b.size) (h : ∀ i j, a.get i j = b.get i j) : a = b := by
  refine ext_row? fun i => ?_
  by_cases hi : i < a.size
  · have hi' : i < b.size := hsize ▸ hi
    rw [row?_of_lt hi, row?_of_lt hi']
    refine congrArg some (Bitmap.ext_get ?_ fun j => h i j)
    rw [ha i hi, hb i hi', hsize]
  · rw [row?_of_size_le (Nat.le_of_not_lt hi), row?_of_size_le (Nat.le_of_not_lt (hsize ▸ hi))]

/-- The bits of a square matrix are within it. -/
theorem IsSquare.lt_of_get (h : m.IsSquare) {i j : Nat} (hget : m.get i j = true) :
    i < m.size ∧ j < m.size := by
  have hi := lt_size_of_get hget
  exact ⟨hi, h i hi ▸ Bitmap.lt_size_of_get hget⟩

end BitMatrix

/-! ## Sets of places -/

/-- A finite set of places, by row and column, with a size. -/
@[ext] structure Grid where
  size : Nat
  places : Finset (Nat × Nat)

namespace Grid

/-- The set of no place. -/
def empty (size : Nat) : Grid := ⟨size, ∅⟩

/-- The places of the diagonal. -/
def identity (size : Nat) : Grid := ⟨size, (Finset.range size).image fun i => (i, i)⟩

/-- A row as a set of columns. -/
def row (g : Grid) (row : Nat) : SizedSet :=
  ⟨g.size, (g.places.filter fun p => p.1 = row).image Prod.snd⟩

/-- The places with a row exchanged for some columns. -/
def withRow (g : Grid) (row : Nat) (columns : Finset Nat) : Grid :=
  ⟨g.size, (g.places.filter fun p => p.1 ≠ row) ∪ columns.image fun column => (row, column)⟩

/-- A row, if there is one. -/
def row? (g : Grid) (row : Nat) : Option SizedSet :=
  if row < g.size then some (g.row row) else none

/-- The set with one more place, if it is within the square. -/
def insert? (g : Grid) (row column : Nat) : Option Grid :=
  if row < g.size ∧ column < g.size then some ⟨g.size, insert (row, column) g.places⟩ else none

/-- The places with a row exchanged for a set of the size of the square. -/
def replaceRow? (g : Grid) (row : Nat) (s : SizedSet) : Option Grid :=
  if row < g.size ∧ s.size = g.size then some (g.withRow row s.members) else none

/-- The places with a row cut down to a set. -/
def andRow? (g : Grid) (row : Nat) (s : SizedSet) : Option Grid :=
  if row < g.size then some (g.withRow row ((g.row row).and s).members) else none

/-- The places with a row united with a set. -/
def orRow? (g : Grid) (row : Nat) (s : SizedSet) : Option Grid :=
  if row < g.size then some (g.withRow row ((g.row row).or s).members) else none

theorem mem_withRow {g : Grid} {row i j : Nat} {columns : Finset Nat} :
    (i, j) ∈ (g.withRow row columns).places ↔ if i = row then j ∈ columns else (i, j) ∈ g.places := by
  simp only [withRow, Finset.mem_union, Finset.mem_filter, Finset.mem_image, Prod.mk.injEq]
  split
  · next h => simp [h]
  · next h => simp [h, Ne.symm h]

end Grid

namespace BitMatrix

/-- The set of places that a matrix stands for. -/
def grid (m : BitMatrix) : Grid := ⟨m.size, m.positions.toFinset⟩

variable {m : BitMatrix}

@[simp] theorem size_grid (m : BitMatrix) : m.grid.size = m.size := rfl

theorem mem_grid {i j : Nat} : (i, j) ∈ m.grid.places ↔ m.get i j = true := by
  rw [grid, List.mem_toFinset, mem_positions]

theorem grid_empty (size : Nat) : (empty size).grid = .empty size := by
  refine Grid.ext rfl (Finset.ext ?_)
  rintro ⟨i, j⟩
  rw [mem_grid]
  simp [Grid.empty]

theorem grid_identity (size : Nat) : (identity size).grid = .identity size := by
  refine Grid.ext rfl (Finset.ext ?_)
  rintro ⟨i, j⟩
  rw [mem_grid, get_identity, decide_eq_true_eq]
  simp only [Grid.identity, Finset.mem_image, Finset.mem_range, Prod.mk.injEq]
  constructor
  · rintro ⟨hi, rfl⟩
    exact ⟨i, hi, rfl, rfl⟩
  · rintro ⟨k, hk, rfl, rfl⟩
    exact ⟨hk, rfl⟩

theorem sized_row (h : m.IsSquare) {row : Nat} (hrow : row < m.size) :
    (m.row row).sized = m.grid.row row := by
  refine SizedSet.ext (h row hrow) (Finset.ext fun j => ?_)
  rw [Bitmap.mem_sized, ← get_eq_row, ← mem_grid]
  simp [Grid.row]

/-- **A row is changed as its bitmap is**, and the others stay. -/
theorem grid_modifyRow {row : Nat} (hrow : row < m.size) (f : Bitmap → Bitmap) :
    (m.modifyRow row f).grid = m.grid.withRow row (f (m.row row)).sized.members := by
  refine Grid.ext rfl (Finset.ext ?_)
  rintro ⟨i, j⟩
  rw [mem_grid, Grid.mem_withRow, get_eq_row, row_modifyRow]
  by_cases hi : i = row
  · subst hi
    rw [if_pos ⟨rfl, hrow⟩, if_pos rfl, Bitmap.mem_sized]
  · rw [if_neg fun h => hi h.1.symm, if_neg hi, mem_grid, get_eq_row]

theorem sized_row? (h : m.IsSquare) (row : Nat) :
    (m.row? row).map Bitmap.sized = m.grid.row? row := by
  rw [Grid.row?, size_grid]
  split
  · next hrow => rw [row?_of_lt hrow, Option.map_some, sized_row h hrow]
  · next hrow => rw [row?_of_size_le (Nat.le_of_not_lt hrow), Option.map_none]

theorem insert?_eq (h : m.IsSquare) (row column : Nat) : m.insert? row column =
    if row < m.size ∧ column < m.size then some (m.insert row column) else none := by
  have hroom : column < (m.row row).size ↔ row < m.size ∧ column < m.size := by
    by_cases hrow : row < m.size
    · rw [h row hrow, and_iff_right hrow]
    · rw [row_of_size_le (Nat.le_of_not_lt hrow)]
      exact iff_of_false (Nat.not_lt_zero _) fun hboth => hrow hboth.1
  exact if_congr hroom rfl rfl

theorem grid_insert? (h : m.IsSquare) (row column : Nat) :
    (m.insert? row column).map grid = m.grid.insert? row column := by
  rw [insert?_eq h, Grid.insert?, size_grid]
  split
  · next hboth =>
    refine congrArg some (Grid.ext rfl (Finset.ext ?_))
    rintro ⟨i, j⟩
    rw [mem_grid, get_insert, Finset.mem_insert, mem_grid, Bool.or_eq_true, Bool.and_eq_true,
      decide_eq_true_eq, decide_eq_true_eq, Prod.mk.injEq]
    constructor
    · rintro (hget | ⟨⟨rfl, rfl⟩, -⟩)
      · exact .inr hget
      · exact .inl ⟨rfl, rfl⟩
    · rintro (⟨rfl, rfl⟩ | hget)
      · exact .inr ⟨⟨rfl, rfl⟩, h i hboth.1 ▸ hboth.2⟩
      · exact .inl hget
  · rfl

theorem grid_replaceRow? (m : BitMatrix) (row : Nat) (bits : Bitmap) :
    (m.replaceRow? row bits).map grid = m.grid.replaceRow? row bits.sized := by
  rw [replaceRow?, Grid.replaceRow?, size_grid, Bitmap.size_sized]
  split
  · next hrow => rw [Option.map_some, grid_modifyRow hrow.1]
  · rfl

theorem grid_andRow? (h : m.IsSquare) (row : Nat) (mask : Bitmap) :
    (m.andRow? row mask).map grid = m.grid.andRow? row mask.sized := by
  rw [andRow?, Grid.andRow?, size_grid]
  split
  · next hrow => rw [Option.map_some, grid_modifyRow hrow, Bitmap.sized_and, sized_row h hrow]
  · rfl

theorem grid_orRow? (h : m.IsSquare) (row : Nat) (bits : Bitmap) :
    (m.orRow? row bits).map grid = m.grid.orRow? row bits.sized := by
  rw [orRow?, Grid.orRow?, size_grid]
  split
  · next hrow => rw [Option.map_some, grid_modifyRow hrow, Bitmap.sized_or, sized_row h hrow]
  · rfl

end BitMatrix
end TransitChanges.Bits
