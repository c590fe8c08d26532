import Mathlib.Algebra.BigOperators.Group.Finset.Basic
import Mathlib.Data.Finset.Prod
import TransitChanges.Proofs.Decompositions

/-!
# The pairs that are connected

A pair of different routes is connected if it has a degree.  Since it has one degree at most, the
matrices of the degrees have no bit in common, and none on the diagonal.  So the number of bits over
all degrees is the number of connected pairs, row by row as well as altogether, and it cannot be
larger than the number of all pairs of different routes.

The rounds that compute the degrees end early, when the running total says that every pair is
connected or when a round adds nothing.  The matrices are those that all rounds find if none is left
out (`inFull`): after either exit the next round is empty, and an empty round is followed by empty
rounds.  None of this depends on the mask that the degrees are computed under.

* `rounds_eq_everyRound`: the rounds with their exits and without.
* `get_reachedBy`: the routes up to a degree from a route.
* `count_eq_card_connected`, `count_eq_sum_card`: the two ways of counting.
-/

namespace TransitChanges

open Bits

namespace Degrees

/-! ## Rounds without an exit -/

/-- A number of rounds after the last, whatever they add. -/
def everyRound (shared direct : BitMatrix) :
    (rounds : Nat) → (last reached : BitMatrix) → List BitMatrix
  | 0, _, _ => []
  | k + 1, last, reached =>
    let added := next shared direct last reached
    added :: everyRound shared direct k added (union reached added)

/-- The matrices of all degrees, with every round made. -/
def inFull (shared direct : BitMatrix) : List BitMatrix :=
  direct :: everyRound shared direct (maxDegree - 1) direct
    (union (.identity direct.size) direct)

variable {shared direct last reached : BitMatrix} {length total : Nat}

/-- A round that adds nothing is followed by others that add nothing. -/
theorem everyRound_of_empty (hsquare : direct.IsSquare)
    (hnone : ∀ i j, (next shared direct last reached).get i j = false) (k : Nat) :
    everyRound shared direct k last reached = List.replicate k (.empty direct.size) := by
  induction k generalizing last reached with
  | zero => rfl
  | succ k ih =>
    have hempty : next shared direct last reached = .empty direct.size := by
      refine (isSquare_next hsquare).ext_get (BitMatrix.isSquare_empty _) rfl fun i j => ?_
      rw [hnone, BitMatrix.get_empty]
    have hnext (i j : Nat) : (next shared direct (next shared direct last reached)
        (union reached (next shared direct last reached))).get i j = false := by
      rw [← Bool.not_eq_true, get_next (size_next ..)]
      -- there is no route left from which one could change
      rintro ⟨⟨via, hvia, -⟩, -⟩
      rw [hnone] at hvia
      cases hvia
    show next shared direct last reached :: everyRound shared direct k _ _ = _
    rw [ih hnext, hempty, List.replicate_succ]

/-- **An exit leaves out empty rounds only.** -/
theorem rounds_eq_everyRound (hdirect : IsDirect shared direct) (hsquare : direct.IsSquare)
    {k : Nat} (h : RoundState shared direct length last reached total) :
    rounds shared direct k last reached total = everyRound shared direct k last reached := by
  induction k generalizing length last reached total with
  | zero => rfl
  | succ k ih =>
    unfold rounds
    dsimp only
    split
    · next hexit =>
      -- no pair has the degree at which the loop is left, so neither it nor what follows adds any
      refine (everyRound_of_empty hsquare (fun i j => ?_) (k + 1)).symm
      rw [← Bool.not_eq_true, h.get_next_iff]
      exact h.not_isLeast_of_exit hdirect hexit i j
    · rw [ih h.step]
      rfl

/-! ## Pairs with a degree -/

/-- One can get from the first route to the second with a number of changes that is computed. -/
def Connects (t : Degrees) (first second : Nat) : Prop :=
  ∃ d ≤ maxDegree, t.degreeOf ⟨first, second⟩ = some d

instance (t : Degrees) (first second : Nat) : Decidable (t.Connects first second) :=
  inferInstanceAs (Decidable (∃ d ≤ maxDegree, t.degreeOf ⟨first, second⟩ = some d))

/-- The ordered pairs of different routes. -/
def pairs (t : Degrees) : Finset (Nat × Nat) :=
  (Finset.range t.size).offDiag

/-- The pairs of different routes that are connected. -/
def connected (t : Degrees) : Finset (Nat × Nat) :=
  t.pairs.filter fun pair => t.Connects pair.1 pair.2

variable {n : Numbering} {interchanges : List Interchange} {t : Degrees}

theorem mem_pairs {i j : Nat} : (i, j) ∈ t.pairs ↔ (i < t.size ∧ j < t.size) ∧ i ≠ j := by
  simp [pairs, Finset.mem_offDiag, and_assoc]

theorem card_pairs (t : Degrees) : t.pairs.card = t.size * (t.size - 1) := by
  rw [pairs, Finset.offDiag_card, Finset.card_range, Nat.mul_sub_one]

theorem level_add_one {place : Nat} (h : place < t.levels.length) :
    t.level (place + 1) = t.levels[place] := by
  rw [level, Nat.add_sub_cancel, List.getElem?_eq_getElem h]

/-- The matrices are those of the degrees. -/
theorem levels_eq_map (t : Degrees) : t.levels = all.map t.level := by
  refine List.ext_getElem ?_ fun place h _ => ?_
  · rw [t.length_levels]
    rfl
  · simp [all, Nat.add_comm 1, level_add_one h]

/-- The matrices up to a degree. -/
theorem mem_take_levels {upTo : Nat} {m : BitMatrix} :
    m ∈ t.levels.take upTo ↔ ∃ d ∈ all, d ≤ upTo ∧ t.level d = m := by
  have hlength := t.length_levels
  rw [List.mem_take_iff_getElem]
  constructor
  · rintro ⟨place, hplace, rfl⟩
    refine ⟨place + 1, mem_all.mpr ?_, by omega, level_add_one (by omega)⟩
    omega
  · rintro ⟨d, hd, hle, rfl⟩
    obtain ⟨hpos, hmax⟩ := mem_all.mp hd
    obtain ⟨place, rfl⟩ := Nat.exists_eq_add_of_le' hpos
    exact ⟨place, by omega, (level_add_one (by omega)).symm⟩

/-- The routes up to a degree from a route. -/
theorem get_reachedBy {route upTo j : Nat} : (t.reachedBy route upTo).get j = true ↔
    ∃ d ∈ all, d ≤ upTo ∧ t.isAt d ⟨route, j⟩ = true := by
  rw [reachedBy, get_foldl_or (fun m : BitMatrix => m.row route), Bitmap.get_empty]
  simp only [mem_take_levels, Bool.false_eq_true, false_or]
  constructor
  · rintro ⟨_, ⟨d, hd, hle, rfl⟩, hget⟩
    exact ⟨d, hd, hle, hget⟩
  · rintro ⟨d, hd, hle, hat⟩
    exact ⟨t.level d, ⟨d, hd, hle, rfl⟩, hat⟩

section Built

variable (hn : n.NamesApart) (ht : build n shared interchanges = .ok t)
include hn ht

/-- A pair is connected if a matrix has it. -/
theorem mem_connected_iff {i j : Nat} :
    (i, j) ∈ t.connected ↔ ∃ d ∈ all, t.isAt d ⟨i, j⟩ = true := by
  rw [connected, Finset.mem_filter, mem_pairs]
  constructor
  · rintro ⟨⟨-, hne⟩, d, hle, hdegree⟩
    obtain ⟨⟨hpos, -⟩, hat⟩ := (degreeOf_eq_some_iff_of_ne hn ht hne).mp hdegree
    exact ⟨d, mem_all.mpr ⟨hpos, hle⟩, hat⟩
  · rintro ⟨d, hd, hat⟩
    obtain ⟨hpos, hle⟩ := mem_all.mp hd
    have hdegree := (degreeOf_eq_some_iff_isAt hn ht hpos hle).mpr hat
    refine ⟨⟨(squares_of_build ht).lt_of_isAt hat, ?_⟩, d, hle, hdegree⟩
    rintro rfl
    rw [degreeOf_self, Option.some.injEq] at hdegree
    omega

/-- The routes at a degree from 1 on. -/
theorem get_reachedBy_iff {route upTo j : Nat} : (t.reachedBy route upTo).get j = true ↔
    ∃ d, 1 ≤ d ∧ d ≤ upTo ∧ t.degreeOf ⟨route, j⟩ = some d := by
  rw [get_reachedBy]
  refine exists_congr fun d => ?_
  constructor
  · rintro ⟨hd, hle, hat⟩
    obtain ⟨hpos, hmax⟩ := mem_all.mp hd
    exact ⟨hpos, hle, (degreeOf_eq_some_iff_isAt hn ht hpos hmax).mpr hat⟩
  · rintro ⟨hpos, hle, hdegree⟩
    have hmax := le_of_degreeOf hdegree
    exact ⟨mem_all.mpr ⟨hpos, hmax⟩, hle, (degreeOf_eq_some_iff_isAt hn ht hpos hmax).mp hdegree⟩

/-- The connected pairs, degree by degree. -/
theorem connected_eq_biUnion_levels :
    t.connected = all.toFinset.biUnion fun d => (t.level d).positions.toFinset := by
  ext ⟨i, j⟩
  simp only [mem_connected_iff hn ht, Finset.mem_biUnion, List.mem_toFinset,
    BitMatrix.mem_positions, isAt]

/-- The connected pairs, route by route. -/
theorem connected_eq_biUnion_rows : t.connected = (Finset.range t.size).biUnion fun route =>
    (t.reachedBy route maxDegree).toFinset.image (Prod.mk route) := by
  ext ⟨i, j⟩
  simp only [mem_connected_iff hn ht, Finset.mem_biUnion, Finset.mem_image, Finset.mem_range,
    Bitmap.mem_toFinset, get_reachedBy, Prod.mk.injEq]
  constructor
  · rintro ⟨d, hd, hat⟩
    exact ⟨i, ((squares_of_build ht).lt_of_isAt hat).1, j,
      ⟨d, hd, (mem_all.mp hd).2, hat⟩, rfl, rfl⟩
  · rintro ⟨_, -, _, ⟨d, hd, -, hat⟩, rfl, rfl⟩
    exact ⟨d, hd, hat⟩

/-- **The bits of all degrees are the connected pairs.** -/
theorem count_eq_card_connected : t.count = t.connected.card := by
  have hdisjoint : (all.toFinset : Set Nat).PairwiseDisjoint fun d =>
      (t.level d).positions.toFinset := by
    intro d hd e he hne
    refine Finset.disjoint_left.mpr ?_
    rintro ⟨i, j⟩ hatd hate
    rw [List.mem_toFinset, BitMatrix.mem_positions] at hatd hate
    exact hne (eq_of_get_level hn ht (by simpa using hd) (by simpa using he) hatd hate)
  have hcard (d : Nat) : (t.level d).positions.toFinset.card = (t.level d).count := by
    rw [List.toFinset_card_of_nodup (t.level d).nodup_positions,
      BitMatrix.count_eq_length_positions]
  have hall : all.Nodup := List.nodup_range'
  rw [connected_eq_biUnion_levels hn ht, Finset.card_biUnion hdisjoint, List.sum_toFinset _ hall]
  simp only [hcard]
  rw [count, levels_eq_map, List.foldr_map, List.sum_eq_foldr, List.foldr_map]

/-- **The connected pairs are the routes up to the largest degree, from every route.** -/
theorem card_connected_eq_sum :
    t.connected.card = ∑ route ∈ Finset.range t.size, (t.reachedBy route maxDegree).card := by
  have hdisjoint : (Finset.range t.size : Set Nat).PairwiseDisjoint fun route =>
      (t.reachedBy route maxDegree).toFinset.image (Prod.mk route) := by
    intro i _ j _ hne
    refine Finset.disjoint_left.mpr fun pair hi hj => hne ?_
    obtain ⟨_, -, rfl⟩ := Finset.mem_image.mp hi
    obtain ⟨_, -, heq⟩ := Finset.mem_image.mp hj
    exact (Prod.mk.inj heq).1.symm
  rw [connected_eq_biUnion_rows hn ht, Finset.card_biUnion hdisjoint]
  refine Finset.sum_congr rfl fun route _ => ?_
  rw [Finset.card_image_of_injective _ (Prod.mk_right_injective route), Bitmap.card_toFinset]

/-- The matrices are those of all rounds. -/
theorem levels_eq_inFull : t.levels = inFull shared (t.level 1) := by
  have hsquare := ((squares_of_build ht).level 1).2
  obtain ⟨direct, rfl, hdirect, -⟩ := exists_isDirect_of_build hn ht
  show direct :: rounds shared direct _ direct _ direct.count = inFull shared direct
  rw [rounds_eq_everyRound hdirect hsquare (RoundState.initial hdirect), inFull]

end Built

theorem card_connected_le (t : Degrees) : t.connected.card ≤ t.size * (t.size - 1) := by
  rw [← card_pairs]
  exact Finset.card_filter_le _ _

/-- As many pairs are connected as there are, if all of them are. -/
theorem card_connected_eq_iff : t.connected.card = t.size * (t.size - 1) ↔
    ∀ i < t.size, ∀ j < t.size, i ≠ j → t.Connects i j := by
  rw [← card_pairs, connected, Finset.card_filter_eq_iff]
  constructor
  · intro h i hi j hj hne
    exact h (i, j) (mem_pairs.mpr ⟨⟨hi, hj⟩, hne⟩)
  · rintro h ⟨i, j⟩ hpair
    obtain ⟨⟨hi, hj⟩, hne⟩ := mem_pairs.mp hpair
    exact h i hi j hj hne

/-- **What the number of bits tells of built degrees.**  It is the number of connected pairs, which
are the routes up to the largest degree from each route, and it is as large as the number of pairs
of different routes only if all of these are connected.  The matrices are those that all rounds
find, although the rounds end on that number or on a round that adds nothing. -/
theorem count_of_build (hn : n.IsMade) (ht : build n shared interchanges = .ok t) :
    t.size = n.size ∧
    t.count = t.connected.card ∧
    t.count = ∑ route ∈ Finset.range n.size, (t.reachedBy route maxDegree).card ∧
    (∀ route < n.size, ∀ upTo, ∃ reached, t.reachedBy? route upTo = some reached ∧
      (∀ j, reached.get j = true ↔
        ∃ d, 1 ≤ d ∧ d ≤ upTo ∧ t.degreeOf ⟨route, j⟩ = some d) ∧
      reached.get route = false) ∧
    t.count ≤ n.size * (n.size - 1) ∧
    (t.count = n.size * (n.size - 1) ↔
      ∀ i < n.size, ∀ j < n.size, i ≠ j → t.Connects i j) ∧
    t.levels = inFull shared (t.level 1) := by
  have hapart := hn.apart
  have hsize : t.size = n.size := congrArg Numbering.size (numbering_of_build ht)
  have hcount := count_eq_card_connected hapart ht
  rw [← hsize]
  refine ⟨rfl, hcount, ?_, fun route hroute upTo => ?_, ?_, ?_, levels_eq_inFull hapart ht⟩
  · rw [hcount, card_connected_eq_sum hapart ht]
  · refine ⟨t.reachedBy route upTo, if_pos (.inl hroute),
      fun j => get_reachedBy_iff hapart ht, ?_⟩
    rw [← Bool.not_eq_true, get_reachedBy_iff hapart ht]
    rintro ⟨d, hpos, -, hdegree⟩
    rw [degreeOf_self, Option.some.injEq] at hdegree
    omega
  · rw [hcount]
    exact card_connected_le t
  · rw [hcount]
    exact card_connected_eq_iff

end Degrees

namespace SampleCity

/-- Every two routes of the city are connected, the pink line with the green line and the bus at the
second degree only; so the rounds end before the third. -/
theorem all_connected : cityNumbering.IsMade ∧
    ∃ t, Degrees.build cityNumbering cityNumbering.sharedDates network.interchanges = .ok t ∧
      t.connected.card = 12 ∧ (∀ i < 4, ∀ j < 4, i ≠ j → t.Connects i j) ∧
      (∃ reached, t.reachedBy? 2 1 = some reached ∧ reached.get 0 = true ∧
        reached.get 1 = false) ∧
      t.levels = Degrees.inFull cityNumbering.sharedDates (t.level 1) := by
  have hmade : cityNumbering.IsMade := .inl ⟨network.source, build_city⟩
  have ht := Degrees.build_of_directChanges cityNumbering.sharedDates directChanges_city
  obtain ⟨-, hcount, -, hreached, -, hfull, hlevels⟩ := Degrees.count_of_build hmade ht
  obtain ⟨reached, hsome, hget, -⟩ := hreached 2 (by decide) 1
  refine ⟨hmade, _, ht, ?_, hfull.mp (by decide +kernel), ⟨reached, hsome, ?_, ?_⟩, hlevels⟩
  · rw [← hcount]
    decide +kernel
  · exact (hget 0).mpr ⟨1, Nat.le_refl 1, Nat.le_refl 1, by decide +kernel⟩
  · rw [← Bool.not_eq_true, hget 1]
    rintro ⟨d, hpos, hle, hdegree⟩
    obtain rfl : d = 1 := by omega
    revert hdegree
    decide +kernel

end SampleCity
end TransitChanges
