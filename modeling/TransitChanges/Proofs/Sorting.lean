import Std.Data.TreeMap

/-!
# Sorting by an order

Lists are sorted by a transitive and total test.  A test that an order gives is both.

* `pairwise_mergeSort_of_order`: the sorted list is in order.
* `mergeSort_eq_of_perm`: it does not depend on the order of the list, if no two entries are equal
  in rank.
* `filter_mergeSort`, `filter_mergeSort_of_order`: entries of one rank stay in the order of the
  list.
-/

namespace TransitChanges

/-- **Entries of one rank stay in the order of the list**, whatever transitive and total test it is
sorted by. -/
theorem filter_mergeSort {α : Type} {le : α → α → Bool}
    (htrans : ∀ a b c, le a b = true → le b c = true → le a c = true)
    (htotal : ∀ a b, (le a b || le b a) = true) {p : α → Bool}
    (hrank : ∀ a b, p a = true → p b = true → le a b = true) (l : List α) :
    (l.mergeSort le).filter p = l.filter p := by
  have hsorted : (l.filter p).Pairwise fun a b => le a b = true :=
    List.pairwise_of_forall_mem_list fun a ha b hb =>
      hrank a b (List.mem_filter.mp ha).2 (List.mem_filter.mp hb).2
  have hsublist : (l.filter p).Sublist (l.mergeSort le) :=
    List.sublist_mergeSort htrans htotal hsorted List.filter_sublist
  have hfiltered := hsublist.filter p
  rw [List.filter_filter] at hfiltered
  simp only [Bool.and_self] at hfiltered
  exact (hfiltered.eq_of_length ((List.mergeSort_perm l le).filter p).length_eq.symm).symm

section Order

variable {α : Type} (order : α → α → Ordering) [Std.TransCmp order] {le : α → α → Bool}
  (hle : ∀ a b, le a b = (order a b).isLE)

include hle

theorem le_trans_of_order (a b c : α) (hab : le a b = true) (hbc : le b c = true) :
    le a c = true := by
  rw [hle] at hab hbc ⊢
  exact Std.TransCmp.isLE_trans hab hbc

theorem le_total_of_order (a b : α) : (le a b || le b a) = true := by
  have hswap : order b a = (order a b).swap := Std.OrientedCmp.eq_swap
  rw [hle, hle, hswap]
  cases order a b <;> rfl

/-- A sorted list is in order. -/
theorem pairwise_mergeSort_of_order (l : List α) :
    (l.mergeSort le).Pairwise fun a b => le a b = true :=
  List.pairwise_mergeSort (le_trans_of_order order hle) (le_total_of_order order hle) l

/-- Lists of the same entries are sorted alike, if the order tells the entries apart. -/
theorem mergeSort_eq_of_perm {l l' : List α} (hperm : l.Perm l')
    (heq : ∀ a ∈ l, ∀ b ∈ l, order a b = .eq → a = b) : l.mergeSort le = l'.mergeSort le := by
  have hmerged := ((List.mergeSort_perm l le).trans hperm).trans (List.mergeSort_perm l' le).symm
  refine List.Perm.eq_of_pairwise (fun a b ha hb hab hba => ?_)
    (pairwise_mergeSort_of_order order hle l) (pairwise_mergeSort_of_order order hle l') hmerged
  rw [hle] at hab hba
  exact heq a (List.mem_mergeSort.mp ha) b (hperm.mem_iff.mpr (List.mem_mergeSort.mp hb))
    (Std.OrientedCmp.isLE_antisymm hab hba)

/-- Entries of one rank stay in the order of the list. -/
theorem filter_mergeSort_of_order {p : α → Bool}
    (hrank : ∀ a b, p a = true → p b = true → le a b = true) (l : List α) :
    (l.mergeSort le).filter p = l.filter p :=
  filter_mergeSort (le_trans_of_order order hle) (le_total_of_order order hle) hrank l

end Order
end TransitChanges
