import TransitChanges.Ways

/-!
# What a tree of ways stands for

A tree says that one can get there if some chain of stations it stands for operates
(`isOpen_iff_exists_chain`).  How many changes that takes is told by the tree alone, and it is the
length of a chain only where no part of the tree is dead: a part without a way makes the whole tree
unreachable.  The trees that connections expand to have no such part, and all their chains are of
one length (`Uniform`).

* `mem_chains_ofWays`, `mem_chains_ofStations`: the chains of alternatives.
* `exists_of_mem_stations_ofWays`, `stations_ofStations`: the stations of alternatives.
* `isOpen_iff_exists_chain`: a tree is open along one of its chains.
* `exists_depth_any_eq`: alternatives are as deep as the deepest of them.
* `Uniform.depth_eq`: the number of changes of a tree whose parts all lead somewhere.
-/

namespace TransitChanges.Ways

variable {Station : Type} {c : List Station}

/-! ## Chains of the parts -/

theorem chainsOfAny_eq_flatMap (ways : List (Ways Station)) :
    chainsOfAny ways = ways.flatMap chains := by
  induction ways with
  | nil => rw [chainsOfAny, List.flatMap_nil]
  | cons w ways ih => rw [chainsOfAny, List.flatMap_cons, ih]

theorem mem_chains_any {ways : List (Ways Station)} :
    c ∈ (any ways).chains ↔ ∃ w ∈ ways, c ∈ w.chains := by
  rw [chains, chainsOfAny_eq_flatMap, List.mem_flatMap]

theorem mem_chains_both {v w : Ways Station} :
    c ∈ (both v w).chains ↔ ∃ d ∈ v.chains, ∃ e ∈ w.chains, c = d ++ e := by
  simp only [chains, List.mem_flatMap, List.mem_map, eq_comm]

theorem mem_chains_ofStations {stations : List Station} :
    c ∈ (ofStations stations).chains ↔ ∃ station ∈ stations, c = [station] := by
  unfold ofStations
  split <;> simp [chains, eq_comm]

theorem isNoWay_of_mem_chains {w : Ways Station} (h : c ∈ w.chains) : w.isNoWay = false := by
  cases w with
  | noWay =>
    rw [chains] at h
    cases h
  | _ => rfl

/-- Alternatives that are no way have no chains to lose. -/
theorem mem_chains_ofWays {ways : List (Ways Station)} :
    c ∈ (ofWays ways).chains ↔ ∃ w ∈ ways, c ∈ w.chains := by
  unfold ofWays
  split
  · next hnone =>
    rw [chains, iff_false_left List.not_mem_nil]
    rintro ⟨w, hw, hc⟩
    have hdropped := List.filter_eq_nil_iff.mp hnone w hw
    rw [isNoWay_of_mem_chains hc] at hdropped
    exact hdropped rfl
  · rw [mem_chains_any]
    constructor
    · rintro ⟨w, hw, hc⟩
      exact ⟨w, (List.mem_filter.mp hw).1, hc⟩
    · rintro ⟨w, hw, hc⟩
      exact ⟨w, List.mem_filter.mpr ⟨hw, by rw [isNoWay_of_mem_chains hc]; rfl⟩, hc⟩

/-! ## Stations of a tree -/

mutual

/-- The stations of a tree from left to right, with repeats. -/
def stations : Ways Station → List Station
  | noWay => []
  | single station => [station]
  | choice stations => stations
  | both first second => stations first ++ stations second
  | any ways => stationsOfAny ways

/-- The stations of alternatives from left to right, with repeats. -/
def stationsOfAny : List (Ways Station) → List Station
  | [] => []
  | w :: ways => stations w ++ stationsOfAny ways

end

theorem stations_both (v w : Ways Station) :
    (both v w).stations = v.stations ++ w.stations := by
  rw [stations]

theorem stations_any (ways : List (Ways Station)) :
    (any ways).stations = ways.flatMap stations := by
  rw [stations]
  induction ways with
  | nil => rw [stationsOfAny, List.flatMap_nil]
  | cons w ways ih => rw [stationsOfAny, List.flatMap_cons, ih]

theorem stations_ofStations (list : List Station) : (ofStations list).stations = list := by
  unfold ofStations
  split <;> rw [stations]

/-- Alternatives have the stations of their parts. -/
theorem exists_of_mem_stations_ofWays {ways : List (Ways Station)} {station : Station}
    (h : station ∈ (ofWays ways).stations) : ∃ w ∈ ways, station ∈ w.stations := by
  unfold ofWays at h
  split at h
  · rw [stations] at h
    cases h
  · rw [stations_any, List.mem_flatMap] at h
    obtain ⟨w, hw, hstation⟩ := h
    exact ⟨w, (List.mem_filter.mp hw).1, hstation⟩

/-! ## Being open -/

mutual

/-- **A tree is open exactly if all stations of one of its chains operate.** -/
theorem isOpen_iff_exists_chain (operates : Station → Bool) (w : Ways Station) :
    w.isOpen operates = true ↔ ∃ c ∈ w.chains, ∀ station ∈ c, operates station = true := by
  cases w with
  | noWay => simp [isOpen, chains]
  | single station => simp [isOpen, chains]
  | choice stations =>
    rw [isOpen, List.any_eq_true, chains]
    constructor
    · rintro ⟨station, hmem, hopen⟩
      exact ⟨[station], List.mem_map.mpr ⟨station, hmem, rfl⟩, by simpa using hopen⟩
    · rintro ⟨c, hc, hopen⟩
      obtain ⟨station, hmem, rfl⟩ := List.mem_map.mp hc
      exact ⟨station, hmem, hopen station (List.mem_singleton_self station)⟩
  | both v w =>
    rw [isOpen_both, Bool.and_eq_true, isOpen_iff_exists_chain operates v,
      isOpen_iff_exists_chain operates w]
    constructor
    · rintro ⟨⟨d, hd, hopen⟩, ⟨e, he, hopen'⟩⟩
      refine ⟨d ++ e, mem_chains_both.mpr ⟨d, hd, e, he, rfl⟩, fun station hs => ?_⟩
      rcases List.mem_append.mp hs with hs | hs
      · exact hopen station hs
      · exact hopen' station hs
    · rintro ⟨c, hc, hopen⟩
      obtain ⟨d, hd, e, he, rfl⟩ := mem_chains_both.mp hc
      exact ⟨⟨d, hd, fun s hs => hopen s (List.mem_append_left _ hs)⟩,
        ⟨e, he, fun s hs => hopen s (List.mem_append_right _ hs)⟩⟩
  | any ways =>
    rw [isOpen, chains]
    exact isAnyOpen_iff_exists_chain operates ways

theorem isAnyOpen_iff_exists_chain (operates : Station → Bool) (ways : List (Ways Station)) :
    isAnyOpen operates ways = true ↔
      ∃ c ∈ chainsOfAny ways, ∀ station ∈ c, operates station = true := by
  cases ways with
  | nil => simp [isAnyOpen, chainsOfAny]
  | cons w ways =>
    rw [isAnyOpen, chainsOfAny, Bool.or_eq_true, isOpen_iff_exists_chain operates w,
      isAnyOpen_iff_exists_chain operates ways]
    simp only [List.mem_append, or_and_right, exists_or]

end

/-! ## Numbers of changes -/

theorem depth_ofStations (stations : List Station) :
    (ofStations stations).depth = if stations = [] then .unreachable else .exactly 1 := by
  unfold ofStations
  split <;> simp_all [depth]

section Deepest

variable {ways : List (Ways Station)}

theorem deepest_le_iff {most d : Changes} :
    deepest most ways ≤ d ↔ most ≤ d ∧ ∀ w ∈ ways, w.depth ≤ d := by
  induction ways generalizing most with
  | nil => simp [deepest]
  | cons w ways ih => rw [deepest, ih, Changes.more_le_iff, List.forall_mem_cons, and_assoc]

theorem deepest_eq_or (most : Changes) (ways : List (Ways Station)) :
    deepest most ways = most ∨ ∃ w ∈ ways, deepest most ways = w.depth := by
  induction ways generalizing most with
  | nil =>
    rw [deepest]
    exact .inl rfl
  | cons w ways ih =>
    rw [deepest]
    rcases ih (most.more w.depth) with hmost | ⟨v, hv, hdepth⟩
    · rw [hmost]
      exact (most.more_eq_or w.depth).imp_right fun h => ⟨w, List.mem_cons_self, h⟩
    · exact .inr ⟨v, List.mem_cons_of_mem w hv, hdepth⟩

/-- The depth of alternatives is that of the deepest one. -/
theorem exists_depth_any_eq (h : ways ≠ []) :
    ∃ w ∈ ways, (any ways).depth = w.depth ∧ ∀ v ∈ ways, v.depth ≤ w.depth := by
  cases ways with
  | nil => exact absurd rfl h
  | cons u ways =>
    have hle : ∀ v ∈ u :: ways, v.depth ≤ (any (u :: ways)).depth := by
      rw [depth, List.forall_mem_cons]
      exact deepest_le_iff.mp (Changes.le_refl _)
    have hmem : ∃ w ∈ u :: ways, (any (u :: ways)).depth = w.depth := by
      rw [depth]
      rcases deepest_eq_or u.depth ways with hfirst | ⟨w, hw, hdepth⟩
      · exact ⟨u, List.mem_cons_self, hfirst⟩
      · exact ⟨w, List.mem_cons_of_mem u hw, hdepth⟩
    obtain ⟨w, hw, hdepth⟩ := hmem
    exact ⟨w, hw, hdepth, fun v hv => hdepth ▸ hle v hv⟩

end Deepest

/-! ## Trees without a dead part -/

/-- Every part of the tree leads somewhere, and all by the same number of changes. -/
inductive Uniform : Nat → Ways Station → Prop where
  | single (station : Station) : Uniform 1 (single station)
  | choice {stations : List Station} (h : stations ≠ []) : Uniform 1 (choice stations)
  | both {k m : Nat} {v w : Ways Station} (hv : Uniform k v) (hw : Uniform m w) :
      Uniform (k + m) (both v w)
  | any {k : Nat} {ways : List (Ways Station)} (h : ways ≠ [])
      (hways : ∀ w ∈ ways, Uniform k w) : Uniform k (any ways)

theorem uniform_ofStations {stations : List Station} (h : stations ≠ []) :
    Uniform 1 (ofStations stations) := by
  unfold ofStations
  split
  · exact absurd rfl h
  · exact .single _
  · exact .choice h

/-- Alternatives are no way, or their parts all lead somewhere. -/
theorem uniform_ofWays {k : Nat} {ways : List (Ways Station)} (h : ∀ w ∈ ways, Uniform k w) :
    ofWays ways = noWay ∨ Uniform k (ofWays ways) := by
  unfold ofWays
  split
  · exact .inl rfl
  · next hsome =>
    refine .inr (.any hsome fun w hw => ?_)
    exact h w (List.mem_filter.mp hw).1

/-- The number of changes of such a tree is that of its chains. -/
theorem Uniform.depth_eq {d : Nat} {w : Ways Station} (h : Uniform d w) :
    w.depth = .counted d := by
  induction h with
  | single station =>
    rw [depth]
    rfl
  | choice _ =>
    rw [depth]
    rfl
  | both _ _ hv hw => rw [depth, hv, hw, Changes.counted_add]
  | any hne _ ih =>
    obtain ⟨w, hw, hdepth, -⟩ := exists_depth_any_eq hne
    rw [hdepth, ih w hw]

end TransitChanges.Ways
