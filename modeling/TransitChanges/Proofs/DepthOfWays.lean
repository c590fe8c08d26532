import Mathlib.Data.Set.Finite.Lemmas
import Mathlib.Order.Bounds.Basic
import TransitChanges.Proofs.Ways

/-!
# The depth of a tree of ways

The depth of a tree is meant to be the number of stations of its longest chain.  It is computed from
the parts alone, alternatives by a maximum in which not getting there is the largest, so it is right
as long as every part leads somewhere.

Composing trees by `ofStations`, `both` and `ofWays` does not see to that.  An alternative that is
`noWay` itself is dropped, but one that changes somewhere and then has `noWay` left to go is kept:
it has no chain, and still it is the deepest of the alternatives.  What decides is whether the tree
has a dead part, a `noWay` anywhere in it.

* `Composed.depth_cases`: a composed tree has the depth of its longest chain, or a dead part and none.
* `depth_of_composed`: the same for trees that are open, and what a dead part does to alternatives.
* `Uniform.hasDeadPart_eq_false`: a tree whose parts all lead somewhere has no dead part.
-/

namespace TransitChanges.Ways

variable {Station : Type} {v w : Ways Station} {ways : List (Ways Station)} {k m : Nat}

/-! ## Dead parts -/

mutual

/-- Whether `noWay` occurs anywhere in a tree. -/
def hasDeadPart : Ways Station → Bool
  | noWay => true
  | single _ => false
  | choice _ => false
  | both first second => hasDeadPart first || hasDeadPart second
  | any ways => anyHasDeadPart ways

/-- Whether one of some trees has a dead part. -/
def anyHasDeadPart : List (Ways Station) → Bool
  | [] => false
  | w :: ways => hasDeadPart w || anyHasDeadPart ways

end

theorem hasDeadPart_both : (both v w).hasDeadPart = (v.hasDeadPart || w.hasDeadPart) := by
  rw [hasDeadPart]

theorem hasDeadPart_any : (any ways).hasDeadPart = ways.any hasDeadPart := by
  rw [hasDeadPart]
  induction ways with
  | nil => rw [anyHasDeadPart, List.any_nil]
  | cons w ways ih => rw [anyHasDeadPart, List.any_cons, ih]

theorem hasDeadPart_ofStations (stations : List Station) :
    (ofStations stations).hasDeadPart = stations.isEmpty := by
  unfold ofStations
  split
  · rw [hasDeadPart]
    rfl
  · rw [hasDeadPart]
    rfl
  · next hne _ =>
    rw [hasDeadPart, eq_comm, List.isEmpty_eq_false_iff]
    exact hne

/-! ## The longest chain -/

/-- A number is that of the stations of a longest chain of a tree. -/
def LongestChain (w : Ways Station) (n : Nat) : Prop :=
  IsGreatest {k | ∃ c ∈ w.chains, c.length = k} n

theorem longestChain_ofStations {stations : List Station} (h : stations ≠ []) :
    (ofStations stations).LongestChain 1 := by
  constructor
  · obtain ⟨station, hmem⟩ := List.exists_mem_of_ne_nil stations h
    exact ⟨[station], mem_chains_ofStations.mpr ⟨station, hmem, rfl⟩, rfl⟩
  · rintro k ⟨c, hc, rfl⟩
    obtain ⟨station, -, rfl⟩ := mem_chains_ofStations.mp hc
    exact Nat.le_refl 1

/-- One goes the longest way by the longest of both parts. -/
theorem LongestChain.both (hv : v.LongestChain k) (hw : w.LongestChain m) :
    (both v w).LongestChain (k + m) := by
  constructor
  · obtain ⟨⟨c, hc, rfl⟩, -⟩ := hv
    obtain ⟨⟨d, hd, rfl⟩, -⟩ := hw
    exact ⟨c ++ d, mem_chains_both.mpr ⟨c, hc, d, hd, rfl⟩, List.length_append⟩
  · rintro n ⟨e, he, rfl⟩
    obtain ⟨c, hc, d, hd, rfl⟩ := mem_chains_both.mp he
    rw [List.length_append]
    exact Nat.add_le_add (hv.2 ⟨c, hc, rfl⟩) (hw.2 ⟨d, hd, rfl⟩)

/-- A tree that stands for any chain has a longest one. -/
theorem exists_longestChain {c : List Station} (hc : c ∈ w.chains) : ∃ n, w.LongestChain n := by
  obtain ⟨d, hd, hle⟩ := Set.exists_max_image {c | c ∈ w.chains} List.length
    (List.finite_toSet w.chains) ⟨c, hc⟩
  refine ⟨d.length, ⟨d, hd, rfl⟩, ?_⟩
  rintro k ⟨e, he, rfl⟩
  exact hle e he

/-- The depth of a tree is the number of stations of its longest chain. -/
def HasDepth (w : Ways Station) : Prop :=
  ∃ n, w.depth = .counted n ∧ w.LongestChain n

/-- Alternatives that all have a depth have that of one with a longest chain. -/
theorem hasDepth_any (h : ways ≠ []) (hways : ∀ w ∈ ways, w.HasDepth) : (any ways).HasDepth := by
  obtain ⟨w, hw, hdepth, hle⟩ := exists_depth_any_eq h
  obtain ⟨k, hk, ⟨c, hc, hlength⟩, -⟩ := hways w hw
  obtain ⟨n, hn⟩ := exists_longestChain (mem_chains_any.mpr ⟨w, hw, hc⟩)
  refine ⟨n, hdepth.trans (Changes.le_antisymm ?_ ?_), hn⟩
  · rw [hk]
    exact Changes.counted_le_counted (hn.2 ⟨c, mem_chains_any.mpr ⟨w, hw, hc⟩, hlength⟩)
  · -- the deepest alternative need not be one with a longest chain, where both are too deep
    obtain ⟨⟨d, hd, hlength'⟩, -⟩ := hn
    obtain ⟨v, hv, hd⟩ := mem_chains_any.mp hd
    obtain ⟨m, hm, hlongest⟩ := hways v hv
    refine Changes.le_trans (Changes.counted_le_counted (hlongest.2 ⟨d, hd, hlength'⟩)) ?_
    rw [← hm]
    exact hle v hv

/-- One alternative without a number of changes leaves all of them without one. -/
theorem depth_any_eq_unreachable (hw : w ∈ ways) (hdepth : w.depth = .unreachable) :
    (any ways).depth = .unreachable := by
  obtain ⟨v, -, heq, hle⟩ := exists_depth_any_eq (List.ne_nil_of_mem hw)
  have hvw := hle w hw
  rw [hdepth] at hvw
  exact heq.trans (Changes.eq_unreachable_of_le hvw)

/-- An alternative that is kept and has no number of changes leaves all of them without one. -/
theorem depth_ofWays_eq_unreachable (hw : w ∈ ways) (hkept : w.isNoWay = false)
    (hdepth : w.depth = .unreachable) : (ofWays ways).depth = .unreachable := by
  have hmem : w ∈ ways.filter fun w => !w.isNoWay := List.mem_filter.mpr ⟨hw, by simp [hkept]⟩
  unfold ofWays
  split
  · rw [depth]
  · exact depth_any_eq_unreachable hmem hdepth

/-! ## Composed trees -/

/-- A tree composed of stations, of parts that are both needed and of alternatives. -/
inductive Composed : Ways Station → Prop where
  | noWay : Composed noWay
  | ofStations (stations : List Station) : Composed (ofStations stations)
  | both {v w : Ways Station} (hv : Composed v) (hw : Composed w) : Composed (both v w)
  | ofWays {ways : List (Ways Station)} (h : ∀ w ∈ ways, Composed w) : Composed (ofWays ways)

/-- **The depth of a composed tree is the number of stations of its longest chain**, unless it has a
dead part. -/
theorem Composed.depth_cases (h : Composed w) :
    (w.hasDeadPart = true ∧ w.depth = .unreachable) ∨ (w.hasDeadPart = false ∧ w.HasDepth) := by
  induction h with
  | noWay => exact .inl ⟨by rw [hasDeadPart], by rw [depth]⟩
  | ofStations stations =>
    rw [hasDeadPart_ofStations, depth_ofStations]
    cases stations with
    | nil => exact .inl ⟨rfl, if_pos rfl⟩
    | cons station stations =>
      have hne : station :: stations ≠ [] := List.cons_ne_nil station stations
      refine .inr ⟨rfl, 1, ?_, longestChain_ofStations hne⟩
      rw [depth_ofStations, if_neg hne]
      rfl
  | both _ _ ihv ihw =>
    rw [hasDeadPart_both, Bool.or_eq_true, Bool.or_eq_false_iff]
    rcases ihv with ⟨hv, hdepth⟩ | ⟨hv, k, hdepth, hlongest⟩
    · refine .inl ⟨.inl hv, ?_⟩
      rw [depth, hdepth, Changes.unreachable_add]
    · rcases ihw with ⟨hw, hdepth'⟩ | ⟨hw, m, hdepth', hlongest'⟩
      · refine .inl ⟨.inr hw, ?_⟩
        rw [depth, hdepth', Changes.add_unreachable]
      · refine .inr ⟨⟨hv, hw⟩, k + m, ?_, hlongest.both hlongest'⟩
        rw [depth, hdepth, hdepth', Changes.counted_add]
  | @ofWays ways _ ih =>
    have hkept (w : Ways Station) (hw : w ∈ ways.filter fun w => !w.isNoWay) :
        (w.hasDeadPart = true ∧ w.depth = .unreachable) ∨ (w.hasDeadPart = false ∧ w.HasDepth) :=
      ih w (List.mem_filter.mp hw).1
    unfold Ways.ofWays
    split
    · exact .inl ⟨by rw [hasDeadPart], by rw [depth]⟩
    · next hsome =>
      rw [hasDeadPart_any, List.any_eq_true, ← Bool.not_eq_true, List.any_eq_true]
      by_cases hdead : ∃ w ∈ ways.filter fun w => !w.isNoWay, w.hasDeadPart = true
      · refine .inl ⟨hdead, ?_⟩
        obtain ⟨w, hw, hpart⟩ := hdead
        rcases hkept w hw with ⟨-, hdepth⟩ | ⟨hlive, -⟩
        · exact depth_any_eq_unreachable hw hdepth
        · rw [hpart] at hlive
          cases hlive
      · refine .inr ⟨hdead, hasDepth_any hsome fun w hw => ?_⟩
        rcases hkept w hw with ⟨hpart, -⟩ | ⟨-, hdepth⟩
        · exact absurd ⟨w, hw, hpart⟩ hdead
        · exact hdepth

/-- **A composed tree without a dead part is open for some stations, and its depth is the number of
stations of its longest chain.**  One with a dead part has no depth, even where it is open; and unless
it is `noWay` itself it is kept among alternatives, and takes the depth from all the others. -/
theorem depth_of_composed (h : w.Composed) :
    (w.hasDeadPart = false → (∃ operates, w.isOpen operates = true) ∧
      ∃ n, w.depth = .counted n ∧ w.LongestChain n) ∧
    (w.hasDeadPart = true → w.depth = .unreachable ∧ ∀ ways : List (Ways Station),
      w ∈ ways → w.isNoWay = false → (ofWays ways).depth = .unreachable) := by
  rcases h.depth_cases with ⟨hdead, hdepth⟩ | ⟨hlive, n, hdepth, hlongest⟩
  · refine ⟨fun hlive => ?_, fun _ => ⟨hdepth, fun ways hw hkept => ?_⟩⟩
    · rw [hdead] at hlive
      cases hlive
    · exact depth_ofWays_eq_unreachable hw hkept hdepth
  · refine ⟨fun _ => ⟨⟨fun _ => true, ?_⟩, n, hdepth, hlongest⟩, fun hdead => ?_⟩
    · obtain ⟨c, hc, -⟩ := hlongest.1
      exact (isOpen_iff_exists_chain _ w).mpr ⟨c, hc, fun _ _ => rfl⟩
    · rw [hdead] at hlive
      cases hlive

/-- A choice between changing at `B` and an alternative that goes nowhere after `A`. -/
def brokenOff : Ways String :=
  ofWays [both (ofStations ["A"]) noWay, ofStations ["B"]]

theorem composed_brokenOff : brokenOff.Composed := by
  refine .ofWays fun w hw => ?_
  rcases List.mem_cons.mp hw with rfl | hw
  · exact .both (.ofStations ["A"]) .noWay
  · rw [List.mem_singleton.mp hw]
    exact .ofStations ["B"]

/-- **Changing at `B` is open, and is the only chain there is, and still it has no depth.** -/
theorem depth_brokenOff : brokenOff.Composed ∧ brokenOff.isOpen (fun _ => true) = true ∧
    brokenOff.LongestChain 1 ∧ brokenOff.depth = .unreachable := by
  have hdead : brokenOff.hasDeadPart = true := by rfl
  have hchain (c : List String) : c ∈ brokenOff.chains ↔ c = ["B"] := by
    have hchains : brokenOff.chains = [["B"]] := by rfl
    rw [hchains, List.mem_singleton]
  refine ⟨composed_brokenOff, by rfl, ⟨⟨["B"], (hchain _).mpr rfl, rfl⟩, ?_⟩, ?_⟩
  · rintro k ⟨c, hc, rfl⟩
    rw [(hchain c).mp hc]
    exact Nat.le_refl 1
  · exact ((depth_of_composed composed_brokenOff).2 hdead).1

/-! ## Uniform trees -/

/-- A tree whose parts all lead somewhere has no dead part. -/
theorem Uniform.hasDeadPart_eq_false (h : Uniform k w) : w.hasDeadPart = false := by
  induction h with
  | single station => rw [hasDeadPart]
  | choice _ => rw [hasDeadPart]
  | both _ _ hv hw => rw [hasDeadPart_both, hv, hw, Bool.or_false]
  | any _ _ ih =>
    rw [hasDeadPart_any, List.any_eq_false]
    intro w hw
    rw [ih w hw]
    exact Bool.false_ne_true

/-- A tree whose parts all lead somewhere stands for some chain. -/
theorem Uniform.exists_mem_chains (h : Uniform k w) : ∃ c, c ∈ w.chains := by
  induction h with
  | single station => exact ⟨[station], by rw [chains]; exact List.mem_singleton_self _⟩
  | @choice stations h =>
    obtain ⟨station, hmem⟩ := List.exists_mem_of_ne_nil stations h
    refine ⟨[station], ?_⟩
    rw [chains]
    exact List.mem_map.mpr ⟨station, hmem, rfl⟩
  | both _ _ hv hw =>
    obtain ⟨c, hc⟩ := hv
    obtain ⟨d, hd⟩ := hw
    exact ⟨c ++ d, mem_chains_both.mpr ⟨c, hc, d, hd, rfl⟩⟩
  | @any k ways h _ ih =>
    obtain ⟨w, hw⟩ := List.exists_mem_of_ne_nil ways h
    obtain ⟨c, hc⟩ := ih w hw
    exact ⟨c, mem_chains_any.mpr ⟨w, hw, hc⟩⟩

end TransitChanges.Ways
