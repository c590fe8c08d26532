import TransitChanges.Degrees
import TransitChanges.Proofs.BitCount
import TransitChanges.Proofs.Chain

/-!
# The rounds find least lengths

Each round of `Degrees.rounds` extends the pairs of the last one by a direct change, keeps those
that share a date with the route one starts from, and drops what was reached before.  So a round
knows nothing but the round before it and the pairs reached so far, and what is claimed of all
rounds together has to be kept by each (`RoundState`): the last round has the pairs at least length
`d`, all rounds so far have the pairs at length `d` or less, and the running total counts the latter
but for the diagonal.

The third part is what the early exits hang on.  A total as large as the number of ordered pairs
says that every pair was reached, and then a further round would be empty; and an empty round is
followed by empty rounds only, because least lengths leave no gaps.  Either way the empty matrices
that take the place of the rounds left out are what those rounds would have found.

The mask is that of the start of a chain and is not transitive, so chains of one start are chains
of a relation of their own (`StepFrom`).
-/

namespace TransitChanges.Degrees

open Bits Chain

/-- A direct change to a route that shares a date with the route one started from. -/
def StepFrom (shared direct : BitMatrix) (start first second : Nat) : Prop :=
  direct.get first second = true ∧ shared.get start second = true

/-- The lengths of the chains of direct changes along which every route shares a date with the
first. -/
def chainLengths (shared direct : BitMatrix) (start finish : Nat) : Set Nat :=
  lengths (StepFrom shared direct start) start finish

/-- A table of direct changes leads from no route to itself, and only to routes with an index that
share a date. -/
structure IsDirect (shared direct : BitMatrix) : Prop where
  irrefl (i : Nat) : direct.get i i = false
  shares {i j : Nat} : direct.get i j = true → shared.get i j = true
  lt_size {i j : Nat} : direct.get i j = true → j < direct.size

/-! ## The bits of a round -/

/-- The bits of some rows together. -/
theorem get_foldl_or {α : Type} (f : α → Bitmap) (xs : List α) (row : Bitmap) (j : Nat) :
    (xs.foldl (fun row x => row.or (f x)) row).get j = true ↔
      row.get j = true ∨ ∃ x ∈ xs, (f x).get j = true := by
  induction xs generalizing row with
  | nil => simp
  | cons x xs ih =>
    rw [List.foldl_cons, ih, Bitmap.get_or, Bool.or_eq_true, or_assoc]
    simp

theorem get_nextRow {shared direct last reached : BitMatrix} {i j : Nat} :
    (nextRow shared direct last reached i).get j = true ↔
      (∃ via, last.get i via = true ∧ direct.get via j = true) ∧ shared.get i j = true ∧
        reached.get i j = false := by
  simp only [nextRow, Bitmap.get_andNot, Bitmap.get_and, Bool.and_eq_true, Bool.not_eq_true',
    get_foldl_or, Bitmap.get_empty, Bool.false_eq_true, false_or, Bitmap.mem_toList, and_assoc,
    BitMatrix.get_eq_row]

theorem get_next {shared direct last reached : BitMatrix} (hsize : last.size = direct.size)
    {i j : Nat} :
    (next shared direct last reached).get i j = true ↔
      (∃ via, last.get i via = true ∧ direct.get via j = true) ∧ shared.get i j = true ∧
        reached.get i j = false := by
  rw [next, BitMatrix.get_ofRows, Bool.and_eq_true, get_nextRow, decide_eq_true_eq]
  refine and_iff_right_of_imp ?_
  rintro ⟨⟨via, hlast, -⟩, -⟩
  rw [← hsize]
  exact BitMatrix.lt_size_of_get hlast

theorem size_next (shared direct last reached : BitMatrix) :
    (next shared direct last reached).size = direct.size := rfl

theorem lt_size_of_next {shared direct last reached : BitMatrix} {i j : Nat}
    (h : (next shared direct last reached).get i j = true) : i < direct.size := by
  rw [← size_next shared direct last reached]
  exact BitMatrix.lt_size_of_get h

theorem get_union {a b : BitMatrix} (hsize : b.size = a.size) (i j : Nat) :
    (union a b).get i j = true ↔ a.get i j = true ∨ b.get i j = true := by
  rw [union, BitMatrix.get_ofRows, Bool.and_eq_true, decide_eq_true_eq, Bitmap.get_or,
    Bool.or_eq_true, ← BitMatrix.get_eq_row, ← BitMatrix.get_eq_row]
  refine and_iff_right_of_imp ?_
  rintro (h | h)
  · exact BitMatrix.lt_size_of_get h
  · rw [← hsize]
    exact BitMatrix.lt_size_of_get h

/-- Two matrices without a common bit have together the bits of both. -/
theorem count_union {a b : BitMatrix} (hsize : b.size = a.size)
    (hdisjoint : ∀ i j, a.get i j = true → b.get i j = true → False) :
    (union a b).count = a.count + b.count :=
  BitMatrix.count_eq_add_of_disjoint (get_union hsize) hdisjoint

/-! ## What every round keeps -/

/-- What is known before a round: the last round found the least length `length`, all rounds
together the lengths up to it, and the total counts their pairs. -/
structure RoundState (shared direct : BitMatrix) (length : Nat) (last reached : BitMatrix)
    (total : Nat) : Prop where
  size_last : last.size = direct.size
  size_reached : reached.size = direct.size
  get_last (i j : Nat) :
    last.get i j = true ↔ IsLeast (chainLengths shared direct i j) length
  get_reached (i j : Nat) :
    reached.get i j = true ↔ i < direct.size ∧ ∃ k ∈ chainLengths shared direct i j, k ≤ length
  count_reached : total + direct.size = reached.count

variable {shared direct last reached : BitMatrix} {length total : Nat}

/-- A chain of some length ends at a route with an index. -/
theorem lt_size_of_chain (hdirect : IsDirect shared direct) {i j k : Nat} (hi : i < direct.size)
    (h : k ∈ chainLengths shared direct i j) : j < direct.size := by
  have hchain : Chain (StepFrom shared direct i) i k j := h
  cases hchain with
  | refl => exact hi
  | tail _ hstep => exact hdirect.lt_size hstep.1

/-- The direct changes are the pairs at least length 1. -/
theorem get_direct_iff (hdirect : IsDirect shared direct) {i j : Nat} :
    direct.get i j = true ↔ IsLeast (chainLengths shared direct i j) 1 := by
  rw [chainLengths, isLeast_iff, one_iff]
  constructor
  · intro h
    refine ⟨⟨h, hdirect.shares h⟩, fun k hk hchain => ?_⟩
    obtain rfl : k = 0 := by omega
    rw [zero_iff] at hchain
    rw [hchain, hdirect.irrefl] at h
    cases h
  · rintro ⟨hstep, -⟩
    exact hstep.1

/-- The state before the first round. -/
theorem RoundState.initial (hdirect : IsDirect shared direct) :
    RoundState shared direct 1 direct (union (.identity direct.size) direct) direct.count where
  size_last := rfl
  size_reached := rfl
  get_last i j := get_direct_iff hdirect
  get_reached i j := by
    have hsize : direct.size = (BitMatrix.identity direct.size).size := rfl
    rw [get_union hsize, BitMatrix.get_identity, decide_eq_true_eq]
    constructor
    · rintro (⟨hi, rfl⟩ | h)
      · exact ⟨hi, 0, .refl, by omega⟩
      · exact ⟨BitMatrix.lt_size_of_get h, 1, ((get_direct_iff hdirect).mp h).1, Nat.le_refl 1⟩
    · rintro ⟨hi, k, hchain, hk⟩
      rw [chainLengths, mem_lengths] at hchain
      match k, hk with
      | 0, _ => exact .inl ⟨hi, zero_iff.mp hchain⟩
      | 1, _ => exact .inr (one_iff.mp hchain).1
  count_reached := by
    have hsize : direct.size = (BitMatrix.identity direct.size).size := rfl
    rw [count_union hsize, BitMatrix.count_identity, Nat.add_comm]
    intro i j hidentity h
    rw [BitMatrix.get_identity, decide_eq_true_eq] at hidentity
    rw [hidentity.2, hdirect.irrefl] at h
    cases h

namespace RoundState

/-- A round finds the pairs at the next least length. -/
theorem get_next_iff (h : RoundState shared direct length last reached total) {i j : Nat} :
    (next shared direct last reached).get i j = true ↔
      IsLeast (chainLengths shared direct i j) (length + 1) := by
  rw [get_next h.size_last, ← Bool.not_eq_true, h.get_reached, chainLengths, isLeast_succ_iff]
  constructor
  · rintro ⟨⟨via, hlast, hvia⟩, hshared, hnew⟩
    refine ⟨⟨via, (h.get_last i via).mp hlast, hvia, hshared⟩, fun k hk hchain => ?_⟩
    refine hnew ⟨?_, k, hchain, hk⟩
    rw [← h.size_last]
    exact BitMatrix.lt_size_of_get hlast
  · rintro ⟨⟨via, hleast, hstep⟩, hnone⟩
    refine ⟨⟨via, (h.get_last i via).mpr hleast, hstep.1⟩, hstep.2, ?_⟩
    rintro ⟨-, k, hchain, hk⟩
    exact hnone k hk hchain

/-- A round keeps what is known. -/
theorem step (h : RoundState shared direct length last reached total) :
    RoundState shared direct (length + 1) (next shared direct last reached)
      (union reached (next shared direct last reached))
      (total + (next shared direct last reached).count) where
  size_last := rfl
  size_reached := h.size_reached
  get_last i j := h.get_next_iff
  get_reached i j := by
    have hsize : (next shared direct last reached).size = reached.size := h.size_reached.symm
    rw [get_union hsize, h.get_reached, h.get_next_iff]
    constructor
    · rintro (⟨hi, k, hchain, hk⟩ | hleast)
      · exact ⟨hi, k, hchain, by omega⟩
      · exact ⟨lt_size_of_next (h.get_next_iff.mpr hleast), length + 1, hleast.1, Nat.le_refl _⟩
    · rintro ⟨hi, k, hchain, hk⟩
      obtain ⟨d, hd, hleast⟩ := exists_isLeast hchain
      by_cases hlt : d ≤ length
      · exact .inl ⟨hi, d, hleast.1, hlt⟩
      · obtain rfl : d = length + 1 := by omega
        exact .inr hleast
  count_reached := by
    have hsize : (next shared direct last reached).size = reached.size := h.size_reached.symm
    rw [count_union hsize, ← h.count_reached, Nat.add_right_comm]
    intro i j hreached hnext
    rw [((get_next h.size_last).mp hnext).2.2] at hreached
    cases hreached

/-- An empty round ends the search. -/
theorem not_isLeast_of_count_eq_zero (h : RoundState shared direct length last reached total)
    (hcount : (next shared direct last reached).count = 0) (i j : Nat) :
    ¬ IsLeast (chainLengths shared direct i j) (length + 1) := by
  rw [← h.get_next_iff, BitMatrix.count_eq_zero_iff.mp hcount]
  exact Bool.false_ne_true

/-- A full total ends the search: every pair was reached. -/
theorem not_isLeast_of_full (hdirect : IsDirect shared direct)
    (h : RoundState shared direct length last reached total)
    (hfull : direct.size * (direct.size - 1) ≤ total) (i j : Nat) :
    ¬ IsLeast (chainLengths shared direct i j) (length + 1) := by
  rw [← h.get_next_iff]
  intro hnext
  have hi := lt_size_of_next hnext
  obtain ⟨⟨via, -, hvia⟩, -, hnew⟩ := (get_next h.size_last).mp hnext
  have hplaces : direct.size * direct.size ≤ reached.count := by
    have hsquare : direct.size * direct.size =
        direct.size * (direct.size - 1) + direct.size := by
      rw [← Nat.mul_succ]
      congr 1
      omega
    have hcount := h.count_reached
    omega
  have hbound (k l : Nat) (hkl : reached.get k l = true) : k < direct.size ∧ l < direct.size := by
    obtain ⟨hk, m, hchain, -⟩ := (h.get_reached k l).mp hkl
    exact ⟨hk, lt_size_of_chain hdirect hk hchain⟩
  rw [BitMatrix.get_of_mul_le_count hbound hplaces hi (hdirect.lt_size hvia)] at hnew
  cases hnew

/-- Whichever exit ends the rounds, no pair is at the next least length. -/
theorem not_isLeast_of_exit (hdirect : IsDirect shared direct)
    (h : RoundState shared direct length last reached total)
    (hexit : direct.size * (direct.size - 1) ≤ total ∨
      (next shared direct last reached).count = 0) (i j : Nat) :
    ¬ IsLeast (chainLengths shared direct i j) (length + 1) := by
  rcases hexit with hfull | hcount
  · exact h.not_isLeast_of_full hdirect hfull i j
  · exact h.not_isLeast_of_count_eq_zero hcount i j

end RoundState

/-! ## All rounds -/

/-- **Each round finds its least length**, whichever exit ends the rounds. -/
theorem get_rounds (hdirect : IsDirect shared direct) {k : Nat}
    (h : RoundState shared direct length last reached total) {place : Nat} {m : BitMatrix}
    (hm : (rounds shared direct k last reached total)[place]? = some m) (i j : Nat) :
    m.get i j = true ↔ IsLeast (chainLengths shared direct i j) (length + 1 + place) := by
  induction k generalizing length last reached total place with
  | zero => cases hm
  | succ k ih =>
    unfold rounds at hm
    dsimp only at hm
    split at hm
    · next hexit =>
      -- no pair is at the next least length, hence none at a later one
      have hnone := h.not_isLeast_of_exit hdirect hexit i
      obtain rfl := List.eq_of_mem_replicate (List.mem_of_getElem? hm)
      rw [BitMatrix.get_empty]
      exact iff_of_false Bool.false_ne_true (not_isLeast_add hnone place j)
    · cases place with
      | zero =>
        rw [List.getElem?_cons_zero] at hm
        rw [← Option.some.inj hm]
        exact h.get_next_iff
      | succ place =>
        rw [List.getElem?_cons_succ] at hm
        rw [ih h.step hm, Nat.add_right_comm (length + 1) 1 place, Nat.add_assoc (length + 1)]

/-- The pairs of a degree are those at that least length. -/
theorem get_level_ofDirect (numbering : Numbering) (hdirect : IsDirect shared direct) {d : Nat}
    (hpos : 1 ≤ d) (hle : d ≤ maxDegree) (i j : Nat) :
    ((ofDirect numbering shared direct).level d).get i j = true ↔
      IsLeast (chainLengths shared direct i j) d := by
  have hlength : d - 1 < (ofDirect numbering shared direct).levels.length := by
    rw [length_levels]
    omega
  rw [level, List.getElem?_eq_getElem hlength]
  dsimp only
  generalize hm : (ofDirect numbering shared direct).levels[d - 1] = m
  have hget := List.getElem?_eq_getElem hlength
  rw [hm] at hget
  match d, hpos with
  | 1, _ =>
    rw [← Option.some.inj hget]
    exact get_direct_iff hdirect
  | place + 2, _ =>
    rw [get_rounds hdirect (RoundState.initial hdirect) hget, Nat.add_comm (1 + 1) place]

end TransitChanges.Degrees
