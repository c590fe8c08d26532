import Mathlib.Logic.Function.Basic
import TransitChanges.Proofs.BitSets

/-!
# Runs of operations on bits

Tables are computed by long runs of operations on bitmaps and on rows of a matrix.  Here such a run
is a list of operations on bitmaps in numbered cells and on one matrix (`Operation`), and it can be
made with bits (`Operation.onBits`) or with the sets that these stand for (`Operation.onSets`).  Both
runs end with the same sets, and one is refused where the other is.  So nothing that has happened to
a bitmap before can be seen in it except its size and its set.

A matrix that is square stays square throughout, as rows are only combined with bitmaps of its size.
What can be read off a bitmap and a square matrix follows from their sets (`Bitmap.Laws`,
`BitMatrix.Laws`).

* `sets_onBits`, `isSquare_onBits`: one operation.
* `sets_run`: a run of operations.
* `operate_as_finite_sets`: bitmaps and matrices behave as finite sets.
-/

namespace TransitChanges.Bits

/-! ## Cells and a matrix -/

/-- Sets of indexes in numbered cells and a set of places, whatever they are kept as. -/
structure Board (σ γ : Type) where
  cell : Nat → σ
  matrix : γ

namespace Board

variable {σ γ τ δ : Type}

/-- The board with another set in a cell. -/
def put (b : Board σ γ) (cell : Nat) (s : σ) : Board σ γ :=
  ⟨Function.update b.cell cell s, b.matrix⟩

/-- The board with another matrix. -/
def withMatrix (b : Board σ γ) (m : γ) : Board σ γ :=
  ⟨b.cell, m⟩

/-- The board with what its sets stand for. -/
def map (f : σ → τ) (g : γ → δ) (b : Board σ γ) : Board τ δ :=
  ⟨f ∘ b.cell, g b.matrix⟩

variable {f : σ → τ} {g : γ → δ} {b : Board σ γ}

theorem map_put (cell : Nat) (s : σ) : (b.put cell s).map f g = (b.map f g).put cell (f s) := by
  rw [map, put, Function.comp_update]
  rfl

theorem map_map_put (cell : Nat) (s : Option σ) :
    (s.map (b.put cell)).map (map f g) = (s.map f).map ((b.map f g).put cell) := by
  rw [Option.map_map, Option.map_map]
  exact congrArg (s.map ·) (funext fun _ => map_put cell _)

theorem map_map_withMatrix (m : Option γ) :
    (m.map b.withMatrix).map (map f g) = (m.map g).map (b.map f g).withMatrix := by
  rw [Option.map_map, Option.map_map]
  rfl

end Board

/-- The sets that bitmaps and a matrix stand for. -/
def sets : Board Bitmap BitMatrix → Board SizedSet Grid :=
  Board.map Bitmap.sized BitMatrix.grid

/-! ## Operations -/

/-- An operation on sets of indexes in cells and on a set of places. -/
inductive Operation where
  /-- A set of no index. -/
  | clear (cell size : Nat)
  /-- The set of some indexes. -/
  | list (cell size : Nat) (indexes : List Nat)
  /-- One more index. -/
  | insert (cell index : Nat)
  /-- The indexes that are also in another cell. -/
  | and (cell other : Nat)
  /-- The indexes and those of another cell. -/
  | or (cell other : Nat)
  /-- The indexes but for those of another cell. -/
  | andNot (cell other : Nat)
  /-- A copy of a row of the matrix. -/
  | takeRow (cell row : Nat)
  /-- A matrix without a place. -/
  | square (size : Nat)
  /-- The diagonal. -/
  | identity (size : Nat)
  /-- One more place. -/
  | set (row column : Nat)
  /-- A row exchanged for the set of a cell. -/
  | replaceRow (row cell : Nat)
  /-- A row cut down to the set of a cell. -/
  | andRow (row cell : Nat)
  /-- A row united with the set of a cell. -/
  | orRow (row cell : Nat)

namespace Operation

/-- What an operation does to bits, unless it is refused.  Rows of the matrix are only combined with
bitmaps of its size. -/
def onBits (b : Board Bitmap BitMatrix) : Operation → Option (Board Bitmap BitMatrix)
  | clear cell size => some (b.put cell (.empty size))
  | list cell size indexes => (Bitmap.ofList? size indexes).map (b.put cell)
  | insert cell index => ((b.cell cell).insert? index).map (b.put cell)
  | and cell other => some (b.put cell ((b.cell cell).and (b.cell other)))
  | or cell other => some (b.put cell ((b.cell cell).or (b.cell other)))
  | andNot cell other => some (b.put cell ((b.cell cell).andNot (b.cell other)))
  | takeRow cell row => (b.matrix.row? row).map (b.put cell)
  | square size => some (b.withMatrix (.empty size))
  | identity size => some (b.withMatrix (.identity size))
  | set row column => (b.matrix.insert? row column).map b.withMatrix
  | replaceRow row cell => (b.matrix.replaceRow? row (b.cell cell)).map b.withMatrix
  | andRow row cell =>
    if (b.cell cell).size = b.matrix.size then
      (b.matrix.andRow? row (b.cell cell)).map b.withMatrix
    else none
  | orRow row cell =>
    if (b.cell cell).size = b.matrix.size then
      (b.matrix.orRow? row (b.cell cell)).map b.withMatrix
    else none

/-- What an operation does to sets. -/
def onSets (b : Board SizedSet Grid) : Operation → Option (Board SizedSet Grid)
  | clear cell size => some (b.put cell (.empty size))
  | list cell size indexes => (SizedSet.ofList? size indexes).map (b.put cell)
  | insert cell index => ((b.cell cell).insert? index).map (b.put cell)
  | and cell other => some (b.put cell ((b.cell cell).and (b.cell other)))
  | or cell other => some (b.put cell ((b.cell cell).or (b.cell other)))
  | andNot cell other => some (b.put cell ((b.cell cell).andNot (b.cell other)))
  | takeRow cell row => (b.matrix.row? row).map (b.put cell)
  | square size => some (b.withMatrix (.empty size))
  | identity size => some (b.withMatrix (.identity size))
  | set row column => (b.matrix.insert? row column).map b.withMatrix
  | replaceRow row cell => (b.matrix.replaceRow? row (b.cell cell)).map b.withMatrix
  | andRow row cell =>
    if (b.cell cell).size = b.matrix.size then
      (b.matrix.andRow? row (b.cell cell)).map b.withMatrix
    else none
  | orRow row cell =>
    if (b.cell cell).size = b.matrix.size then
      (b.matrix.orRow? row (b.cell cell)).map b.withMatrix
    else none

end Operation

/-! ## What can be read off bits -/

/-- What holds of two bitmaps of any sizes. -/
structure Bitmap.Laws (a b : Bitmap) : Prop where
  mem_sized : ∀ i, i ∈ a.sized.members ↔ a.get i = true
  get_of_size_le : ∀ i, a.size ≤ i → a.get i = false
  get_and : ∀ i, (a.and b).get i = (a.get i && b.get i)
  get_or : ∀ i, (a.or b).get i = (a.get i || b.get i)
  get_andNot : ∀ i, (a.andNot b).get i = (a.get i && !b.get i)
  size_and : (a.and b).size = a.size
  size_or : (a.or b).size = max a.size b.size
  size_andNot : (a.andNot b).size = a.size
  ascending : a.toList.Pairwise (· < ·)
  mem_toList : ∀ i, i ∈ a.toList ↔ a.get i = true
  card_eq : a.card = a.toList.length
  isEmpty_iff : a.isEmpty = true ↔ a.card = 0
  intersects_iff : a.intersects b = true ↔ ∃ i, a.get i = true ∧ b.get i = true
  eq_iff : a = b ↔ a.size = b.size ∧ ∀ i, a.get i = b.get i
  or_and_andNot : (a.and b).or (a.andNot b) = a

/-- Between two matrices, one row differs at most, and both are square. -/
structure BitMatrix.ChangesRow (m : BitMatrix) (row : Nat) (m' : BitMatrix) : Prop where
  size_eq : m'.size = m.size
  isSquare : m'.IsSquare
  row_eq : ∀ i, i ≠ row → m'.row i = m.row i

/-- What holds of a square matrix. -/
structure BitMatrix.Laws (m : BitMatrix) : Prop where
  size_row : ∀ i < m.size, (m.row i).size = m.size
  mem_grid : ∀ i j, (i, j) ∈ m.grid.places ↔ m.get i j = true
  insert : ∀ row column m', m.insert? row column = some m' → m.ChangesRow row m'
  replaceRow : ∀ row bits m', m.replaceRow? row bits = some m' → m.ChangesRow row m'
  andRow : ∀ row mask m', mask.size = m.size → m.andRow? row mask = some m' → m.ChangesRow row m'
  orRow : ∀ row bits m', bits.size = m.size → m.orRow? row bits = some m' → m.ChangesRow row m'
  ascending : m.positions.Pairwise fun p q => p.1 < q.1 ∨ p.1 = q.1 ∧ p.2 < q.2
  mem_positions : ∀ i j, (i, j) ∈ m.positions ↔ m.get i j = true
  lt_of_mem_positions : ∀ i j, (i, j) ∈ m.positions → i < m.size ∧ j < m.size
  count_eq : m.count = m.positions.length

namespace Bitmap

variable {a b : Bitmap}

theorem get_of_size_le {i : Nat} (h : a.size ≤ i) : a.get i = false := by
  rw [← Bool.not_eq_true]
  exact fun hget => absurd (lt_size_of_get hget) (Nat.not_lt.mpr h)

/-- A bitmap is empty if it has no index. -/
theorem isEmpty_iff_card : a.isEmpty = true ↔ a.card = 0 := by
  rw [isEmpty_iff, card_eq_length_toList, List.length_eq_zero_iff, List.eq_nil_iff_forall_not_mem]
  refine forall_congr' fun i => ?_
  rw [mem_toList, Bool.not_eq_true]

/-- The indexes inside another set and those outside it are all the indexes. -/
theorem or_and_andNot (a b : Bitmap) : (a.and b).or (a.andNot b) = a := by
  refine ext_get (Nat.max_self a.size) fun i => ?_
  rw [get_or, get_and, get_andNot, ← Bool.and_or_distrib_left, Bool.or_not_self, Bool.and_true]

theorem laws (a b : Bitmap) : a.Laws b where
  mem_sized _ := mem_sized
  get_of_size_le _ := get_of_size_le
  get_and := get_and a b
  get_or := get_or a b
  get_andNot := get_andNot a b
  size_and := rfl
  size_or := rfl
  size_andNot := rfl
  ascending := a.pairwise_toList
  mem_toList _ := mem_toList
  card_eq := a.card_eq_length_toList
  isEmpty_iff := isEmpty_iff_card
  intersects_iff := intersects_iff
  eq_iff := ⟨fun h => h ▸ ⟨rfl, fun _ => rfl⟩, fun h => ext_get h.1 h.2⟩
  or_and_andNot := or_and_andNot a b

end Bitmap

namespace BitMatrix

variable {m m' : BitMatrix} {row : Nat}

/-- A row that keeps its size is changed alone. -/
theorem IsSquare.changesRow (h : m.IsSquare) {f : Bitmap → Bitmap}
    (hf : row < m.size → (f (m.row row)).size = m.size) : m.ChangesRow row (m.modifyRow row f) where
  size_eq := rfl
  isSquare := h.modifyRow hf
  row_eq i hi := by rw [row_modifyRow, if_neg fun heq => hi heq.1.symm]

theorem IsSquare.changesRow_insert? (h : m.IsSquare) {column : Nat}
    (hinsert : m.insert? row column = some m') : m.ChangesRow row m' := by
  obtain ⟨-, rfl⟩ := Option.ite_some_none_eq_some.mp hinsert
  refine h.changesRow fun hrow => ?_
  rw [Bitmap.size_insert, h row hrow]

theorem IsSquare.changesRow_replaceRow? (h : m.IsSquare) {bits : Bitmap}
    (hreplace : m.replaceRow? row bits = some m') : m.ChangesRow row m' := by
  obtain ⟨⟨-, hsize⟩, rfl⟩ := Option.ite_some_none_eq_some.mp hreplace
  exact h.changesRow fun _ => hsize

theorem IsSquare.changesRow_andRow? (h : m.IsSquare) {mask : Bitmap}
    (hand : m.andRow? row mask = some m') : m.ChangesRow row m' := by
  obtain ⟨hrow, rfl⟩ := Option.ite_some_none_eq_some.mp hand
  exact h.changesRow fun _ => h row hrow

theorem IsSquare.changesRow_orRow? (h : m.IsSquare) {bits : Bitmap} (hsize : bits.size = m.size)
    (hor : m.orRow? row bits = some m') : m.ChangesRow row m' := by
  obtain ⟨hrow, rfl⟩ := Option.ite_some_none_eq_some.mp hor
  refine h.changesRow fun _ => ?_
  calc max (m.row row).size bits.size
    _ = max m.size m.size := by rw [h row hrow, hsize]
    _ = m.size := Nat.max_self _

theorem IsSquare.laws (h : m.IsSquare) : m.Laws where
  size_row := h
  mem_grid _ _ := mem_grid
  insert _ _ _ := h.changesRow_insert?
  replaceRow _ _ _ := h.changesRow_replaceRow?
  andRow _ _ _ _ := h.changesRow_andRow?
  orRow _ _ _ := h.changesRow_orRow?
  ascending := m.pairwise_positions
  mem_positions _ _ := mem_positions
  lt_of_mem_positions _ _ hmem := h.lt_of_get (mem_positions.mp hmem)
  count_eq := m.count_eq_length_positions

end BitMatrix

/-! ## Runs -/

section Sets

variable {b : Board Bitmap BitMatrix}

theorem sets_put (cell : Nat) (a : Bitmap) : sets (b.put cell a) = (sets b).put cell a.sized :=
  Board.map_put cell a

theorem map_sets_put (cell : Nat) (a : Option Bitmap) :
    (a.map (b.put cell)).map sets = (a.map Bitmap.sized).map ((sets b).put cell) :=
  Board.map_map_put cell a

theorem map_sets_withMatrix (m : Option BitMatrix) :
    (m.map b.withMatrix).map sets = (m.map BitMatrix.grid).map (sets b).withMatrix :=
  Board.map_map_withMatrix m

end Sets

namespace Operation

variable {b b' : Board Bitmap BitMatrix}

/-- **An operation on bits is the one on their sets**, and refused where that is. -/
theorem sets_onBits (h : b.matrix.IsSquare) (op : Operation) :
    (op.onBits b).map sets = op.onSets (sets b) := by
  cases op with
  | clear cell size => rw [onBits, Option.map_some, sets_put, Bitmap.sized_empty, onSets]
  | list cell size indexes => rw [onBits, map_sets_put, Bitmap.sized_ofList?, onSets]
  | insert cell index =>
    rw [onBits, map_sets_put, Bitmap.sized_insert?]
    rfl
  | and cell other =>
    rw [onBits, Option.map_some, sets_put, Bitmap.sized_and]
    rfl
  | or cell other =>
    rw [onBits, Option.map_some, sets_put, Bitmap.sized_or]
    rfl
  | andNot cell other =>
    rw [onBits, Option.map_some, sets_put, Bitmap.sized_andNot]
    rfl
  | takeRow cell row =>
    rw [onBits, map_sets_put, BitMatrix.sized_row? h]
    rfl
  | square size =>
    rw [onBits, onSets, ← BitMatrix.grid_empty]
    rfl
  | identity size =>
    rw [onBits, onSets, ← BitMatrix.grid_identity]
    rfl
  | set row column =>
    rw [onBits, map_sets_withMatrix, BitMatrix.grid_insert? h]
    rfl
  | replaceRow row cell =>
    rw [onBits, map_sets_withMatrix, BitMatrix.grid_replaceRow?]
    rfl
  | andRow row cell =>
    rw [onBits, apply_ite (Option.map sets), map_sets_withMatrix, BitMatrix.grid_andRow? h]
    rfl
  | orRow row cell =>
    rw [onBits, apply_ite (Option.map sets), map_sets_withMatrix, BitMatrix.grid_orRow? h]
    rfl

/-- A square matrix stays square. -/
theorem isSquare_onBits (h : b.matrix.IsSquare) {op : Operation} (hop : op.onBits b = some b') :
    b'.matrix.IsSquare := by
  cases op with
  | clear | and | or | andNot =>
    obtain rfl := Option.some.inj hop
    exact h
  | list | insert | takeRow =>
    obtain ⟨_, -, rfl⟩ := Option.map_eq_some_iff.mp hop
    exact h
  | square size =>
    obtain rfl := Option.some.inj hop
    exact BitMatrix.isSquare_empty size
  | identity size =>
    obtain rfl := Option.some.inj hop
    exact BitMatrix.isSquare_identity size
  | set row column =>
    obtain ⟨m, hm, rfl⟩ := Option.map_eq_some_iff.mp hop
    exact (h.changesRow_insert? hm).isSquare
  | replaceRow row cell =>
    obtain ⟨m, hm, rfl⟩ := Option.map_eq_some_iff.mp hop
    exact (h.changesRow_replaceRow? hm).isSquare
  | andRow row cell =>
    obtain ⟨-, hrow⟩ := Option.ite_none_right_eq_some.mp hop
    obtain ⟨m, hm, rfl⟩ := Option.map_eq_some_iff.mp hrow
    exact (h.changesRow_andRow? hm).isSquare
  | orRow row cell =>
    obtain ⟨hsize, hrow⟩ := Option.ite_none_right_eq_some.mp hop
    obtain ⟨m, hm, rfl⟩ := Option.map_eq_some_iff.mp hrow
    exact (h.changesRow_orRow? hsize hm).isSquare

/-- A run of operations on bits is the run on their sets. -/
theorem sets_run (h : b.matrix.IsSquare) (ops : List Operation) :
    (ops.foldlM onBits b).map sets = ops.foldlM onSets (sets b) := by
  induction ops generalizing b with
  | nil => rfl
  | cons op ops ih =>
    rw [List.foldlM_cons, List.foldlM_cons, ← sets_onBits h]
    cases hop : op.onBits b with
    | none => rfl
    | some b' => exact ih (isSquare_onBits h hop)

theorem isSquare_run (h : b.matrix.IsSquare) {ops : List Operation}
    (hrun : ops.foldlM onBits b = some b') : b'.matrix.IsSquare := by
  induction ops generalizing b with
  | nil =>
    obtain rfl := Option.some.inj hrun
    exact h
  | cons op ops ih =>
    rw [List.foldlM_cons] at hrun
    obtain ⟨b₁, hop, hrest⟩ := Option.bind_eq_some_iff.mp hrun
    exact ih (isSquare_onBits h hop) hrest

end Operation

/-- **Bitmaps and square matrices behave as finite sets**: every run of operations on them ends with
the sets that the run on sets ends with, or is refused as that is, and after it all bitmaps and the
matrix obey the laws of sets. -/
theorem operate_as_finite_sets {b : Board Bitmap BitMatrix} (h : b.matrix.IsSquare)
    (ops : List Operation) :
    (ops.foldlM Operation.onBits b).map sets = ops.foldlM Operation.onSets (sets b) ∧
      ∀ b', ops.foldlM Operation.onBits b = some b' →
        (∀ cell other, (b'.cell cell).Laws (b'.cell other)) ∧ b'.matrix.Laws :=
  ⟨Operation.sets_run h ops, fun _ hrun =>
    ⟨fun _ _ => Bitmap.laws _ _, (Operation.isSquare_run h hrun).laws⟩⟩

/-- A board of bitmaps and a matrix without room. -/
def fresh : Board Bitmap BitMatrix := ⟨fun _ => .empty 0, .empty 0⟩

/-- A run in which a row is taken out of a square and united with a longer bitmap. -/
def growth : List Operation :=
  [.list 0 3 [0, 2], .list 1 5 [2, 4], .square 3, .set 1 1, .orRow 1 0, .takeRow 2 1, .andNot 2 0,
    .or 2 1]

theorem growth_as_finite_sets :
    fresh.matrix.IsSquare ∧
      (growth.foldlM Operation.onBits fresh).map sets =
        growth.foldlM Operation.onSets (sets fresh) ∧
      ∃ b', growth.foldlM Operation.onBits fresh = some b' ∧
        (∀ cell other, (b'.cell cell).Laws (b'.cell other)) ∧ b'.matrix.Laws ∧
        (b'.cell 2).size = 5 ∧ (b'.cell 2).toList = [1, 2, 4] := by
  have hsquare : fresh.matrix.IsSquare := BitMatrix.isSquare_empty 0
  have hrun : (growth.foldlM Operation.onBits fresh).map
      (fun b => ((b.cell 2).size, (b.cell 2).toList)) = some (5, [1, 2, 4]) := by
    decide
  obtain ⟨b', hb', hcell⟩ := Option.map_eq_some_iff.mp hrun
  obtain ⟨hsize, hlist⟩ := Prod.mk.inj hcell
  obtain ⟨hsets, hlaws⟩ := operate_as_finite_sets hsquare growth
  exact ⟨hsquare, hsets, b', hb', (hlaws b' hb').1, (hlaws b' hb').2, hsize, hlist⟩

end TransitChanges.Bits
