import Mathlib.Data.List.Nodup
import Mathlib.Data.List.Perm.Subperm
import Mathlib.Data.List.ProdSigma
import TransitChanges.Bits.BitMatrix

/-!
# Counting the bits of a matrix

The number of bits of a matrix is the number of its positions, which are listed once each.  So
counting is a matter of comparing lists without repeats: two that hold the same positions are
equally long, and one that is as long as the list of all places of a square holds them all.

* `count_eq_length_positions`: the number of bits is the number of positions.
* `count_eq_length`: they are counted by any list that names each position once.
* `count_eq_add_of_disjoint`: the bits of a matrix that splits into two.
* `count_identity`: the bits of a diagonal.
* `get_of_mul_le_count`: a matrix with as many bits as places has them all.
-/

namespace TransitChanges.Bits.BitMatrix

/-- The rows of a matrix, one after the other. -/
theorem toList_rows (m : BitMatrix) : m.rows.toList = (List.range m.size).map m.row := by
  apply List.ext_getElem
  · rw [Array.length_toList, List.length_map, List.length_range, m.size_rows]
  · intro i h₁ h₂
    have hi : i < m.rows.size := by rwa [Array.length_toList] at h₁
    rw [List.getElem_map, List.getElem_range, Array.getElem_toList, row, row?,
      Array.getElem?_eq_getElem hi]
    rfl

/-- The number of bits is the number of positions. -/
theorem count_eq_length_positions (m : BitMatrix) : m.count = m.positions.length := by
  have hrow (i : Nat) : ((m.row i).toList.map fun column => (i, column)).length =
      (m.row i).card := by
    rw [List.length_map, Bitmap.card_eq_length_toList]
  rw [count, ← Array.foldl_toList, toList_rows, positions, List.length_flatMap]
  simp only [hrow]
  rw [List.sum_eq_foldl_nat, List.foldl_map, List.foldl_map]

/-- The positions are listed in order. -/
theorem pairwise_positions (m : BitMatrix) :
    m.positions.Pairwise fun p q => p.1 < q.1 ∨ p.1 = q.1 ∧ p.2 < q.2 := by
  refine List.pairwise_flatMap.mpr ⟨fun row _ => ?_, ?_⟩
  · refine List.Pairwise.map _ (fun a b hlt => ?_) (m.row row).pairwise_toList
    exact .inr ⟨rfl, hlt⟩
  · refine List.Pairwise.imp (fun {row row'} hlt p hp q hq => ?_) List.pairwise_lt_range
    obtain ⟨_, -, rfl⟩ := List.mem_map.mp hp
    obtain ⟨_, -, rfl⟩ := List.mem_map.mp hq
    exact .inl hlt

/-- The positions are listed once each. -/
theorem nodup_positions (m : BitMatrix) : m.positions.Nodup := by
  refine m.pairwise_positions.imp fun {p q} hlt heq => ?_
  rw [heq] at hlt
  omega

/-- The bits of a matrix that splits into two are the bits of both. -/
theorem count_eq_add_of_disjoint {m a b : BitMatrix}
    (h : ∀ i j, m.get i j = true ↔ a.get i j = true ∨ b.get i j = true)
    (hdisjoint : ∀ i j, a.get i j = true → b.get i j = true → False) :
    m.count = a.count + b.count := by
  have hnodup : (a.positions ++ b.positions).Nodup := by
    refine List.nodup_append.mpr ⟨a.nodup_positions, b.nodup_positions, ?_⟩
    rintro ⟨i, j⟩ ha p hb rfl
    exact hdisjoint i j (mem_positions.mp ha) (mem_positions.mp hb)
  rw [count_eq_length_positions, count_eq_length_positions, count_eq_length_positions,
    ← List.length_append]
  refine List.Perm.length_eq ((List.perm_ext_iff_of_nodup m.nodup_positions hnodup).mpr ?_)
  rintro ⟨i, j⟩
  rw [List.mem_append, mem_positions, mem_positions, mem_positions, h]

/-- There are as many bits as entries in a list that names each position once. -/
theorem count_eq_length {α : Type} {m : BitMatrix} {name : Nat × Nat → α}
    (hname : Function.Injective name) {names : List α} (hnodup : names.Nodup)
    (hmem : ∀ x, x ∈ names ↔ ∃ i j, m.get i j = true ∧ name (i, j) = x) :
    m.count = names.length := by
  have hpositions : (m.positions.map name).Nodup :=
    (List.nodup_map_iff hname).mpr m.nodup_positions
  rw [count_eq_length_positions, ← List.length_map (f := name)]
  refine List.Perm.length_eq ((List.perm_ext_iff_of_nodup hpositions hnodup).mpr fun x => ?_)
  rw [hmem, List.mem_map]
  constructor
  · rintro ⟨⟨i, j⟩, hposition, rfl⟩
    exact ⟨i, j, mem_positions.mp hposition, rfl⟩
  · rintro ⟨i, j, hget, rfl⟩
    exact ⟨(i, j), mem_positions.mpr hget, rfl⟩

theorem count_eq_zero_iff {m : BitMatrix} : m.count = 0 ↔ ∀ i j, m.get i j = false := by
  rw [count_eq_length_positions, List.length_eq_zero_iff, List.eq_nil_iff_forall_not_mem]
  constructor
  · intro h i j
    rw [← Bool.not_eq_true, ← mem_positions]
    exact h (i, j)
  · rintro h ⟨i, j⟩ hmem
    rw [mem_positions, h] at hmem
    cases hmem

/-! ## The diagonal and the square -/

theorem get_identity (n i j : Nat) : (identity n).get i j = decide (i < n ∧ i = j) := by
  rw [identity, get_ofRows, Bitmap.get_insert, Bitmap.get_empty, Bitmap.size_empty]
  by_cases h : i < n <;> simp [h]

/-- A diagonal has one bit in each row. -/
theorem count_identity (n : Nat) : (identity n).count = n := by
  have hnodup : ((List.range n).map fun i => (i, i)).Nodup :=
    List.nodup_range.map fun _ _ h => (Prod.mk.inj h).1
  rw [count_eq_length Function.injective_id hnodup, List.length_map, List.length_range]
  rintro ⟨k, l⟩
  simp only [List.mem_map, List.mem_range, get_identity, decide_eq_true_eq, id_eq]
  constructor
  · rintro ⟨i, hi, heq⟩
    exact ⟨i, i, ⟨hi, rfl⟩, heq⟩
  · rintro ⟨i, _, ⟨hi, rfl⟩, heq⟩
    exact ⟨i, hi, heq⟩

/-- A matrix whose bits lie in a square and are as many as its places has them all. -/
theorem get_of_mul_le_count {m : BitMatrix} {n : Nat}
    (hbound : ∀ i j, m.get i j = true → i < n ∧ j < n) (hcount : n * n ≤ m.count) {i j : Nat}
    (hi : i < n) (hj : j < n) : m.get i j = true := by
  have hsubset : m.positions ⊆ List.range n ×ˢ List.range n := by
    rintro ⟨k, l⟩ hmem
    obtain ⟨hk, hl⟩ := hbound k l (mem_positions.mp hmem)
    exact List.mem_product.mpr ⟨List.mem_range.mpr hk, List.mem_range.mpr hl⟩
  have hlength : (List.range n ×ˢ List.range n).length ≤ m.positions.length := by
    rw [List.length_product, List.length_range, ← count_eq_length_positions]
    exact hcount
  have hperm := (m.nodup_positions.subperm hsubset).perm_of_length_le hlength
  rw [← mem_positions, hperm.mem_iff, List.mem_product]
  exact ⟨List.mem_range.mpr hi, List.mem_range.mpr hj⟩

end TransitChanges.Bits.BitMatrix
