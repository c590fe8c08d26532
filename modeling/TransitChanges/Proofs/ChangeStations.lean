import TransitChanges.ChangeStations
import TransitChanges.Proofs.DirectChanges

/-!
# The stations of a direct change

The map is filled interchange by interchange, and one interchange adds its station to every pair of
routes that meets there.  A pair may be met several times at one interchange, and it makes no
difference how often (`addOnce_addOnce`).

What every interchange keeps is `StationsOf`: the pairs with a station are those that meet, the
stations of a pair are interchanges where it meets, and no such interchange is left out but for one
whose station is there already.

* `stationsOf_build`: the built map is that of its interchanges.
* `has_iff`: a pair has a station exactly if it meets somewhere.
-/

namespace TransitChanges.ChangeStations

variable {n : Numbering} {seen interchanges : List Interchange} {interchange : Interchange}
  {map : Std.TreeMap RoutePair (List Interchange)} {pair : RoutePair}

/-! ## One interchange -/

theorem mem_addOnce {i : Interchange} {stations : List Interchange}
    (h : i ∈ addOnce interchange stations) : i ∈ stations ∨ i = interchange := by
  unfold addOnce at h
  split at h
  · exact .inl h
  · rw [List.mem_append, List.mem_singleton] at h
    exact h

theorem subset_addOnce (stations : List Interchange) :
    stations ⊆ addOnce interchange stations := by
  intro i hi
  unfold addOnce
  split
  · exact hi
  · exact List.mem_append_left _ hi

/-- Adding a station again adds nothing. -/
theorem addOnce_addOnce (stations : List Interchange) :
    addOnce interchange (addOnce interchange stations) = addOnce interchange stations := by
  obtain ⟨known, hmem, hstation⟩ := station_mem_addOnce interchange stations
  have hany : ((addOnce interchange stations).any fun known =>
      known.station = interchange.station) = true := by
    rw [List.any_eq_true]
    exact ⟨known, hmem, decide_eq_true hstation⟩
  rw [addOnce, if_pos hany]

/-- The pairs that one interchange adds to. -/
theorem contains_foldl_add (changes : List (Nat × Nat)) (first second : Nat) :
    (changes.foldl (fun map (i, j) => add map interchange ⟨i, j⟩) map).contains
        ⟨first, second⟩ = true ↔
      (first, second) ∈ changes ∨ map.contains ⟨first, second⟩ = true := by
  induction changes generalizing map with
  | nil => simp
  | cons change changes ih =>
    obtain ⟨i, j⟩ := change
    rw [List.foldl_cons, ih]
    dsimp only [add]
    rw [Std.TreeMap.contains_insert, Bool.or_eq_true, beq_iff_eq, Std.compare_eq_iff_eq,
      List.mem_cons, RoutePair.mk.injEq, Prod.mk.injEq, ← or_assoc, eq_comm (a := first),
      eq_comm (a := second)]
    exact or_congr_left or_comm

/-- What one interchange adds to a pair. -/
theorem getD_foldl_add (changes : List (Nat × Nat)) (first second : Nat) :
    (changes.foldl (fun map (i, j) => add map interchange ⟨i, j⟩) map).getD ⟨first, second⟩ [] =
      if (first, second) ∈ changes then addOnce interchange (map.getD ⟨first, second⟩ [])
      else map.getD ⟨first, second⟩ [] := by
  induction changes generalizing map with
  | nil => simp
  | cons change changes ih =>
    obtain ⟨i, j⟩ := change
    rw [List.foldl_cons, ih]
    dsimp only [add]
    rw [Std.TreeMap.getD_insert]
    simp only [Std.compare_eq_iff_eq]
    by_cases hpair : (⟨i, j⟩ : RoutePair) = ⟨first, second⟩
    · cases hpair
      simp [addOnce_addOnce]
    · have hne : (first, second) ≠ (i, j) := by
        rintro ⟨⟩
        exact hpair rfl
      simp [hpair, hne]

/-! ## What every interchange keeps -/

/-- The stations of each pair are those of the interchanges seen so far. -/
structure StationsOf (n : Numbering) (seen : List Interchange)
    (map : Std.TreeMap RoutePair (List Interchange)) : Prop where
  contains_iff (first second : Nat) :
    map.contains ⟨first, second⟩ = true ↔ n.Meet seen first second
  meetAt_of_mem {first second : Nat} {i : Interchange} (h : i ∈ map.getD ⟨first, second⟩ []) :
    i ∈ seen ∧ n.MeetAt i first second
  exists_of_meetAt {first second : Nat} {i : Interchange} (hi : i ∈ seen)
    (h : n.MeetAt i first second) : ∃ known ∈ map.getD ⟨first, second⟩ [], known.station = i.station

namespace StationsOf

/-- Before the first interchange. -/
theorem empty (n : Numbering) : StationsOf n [] ∅ where
  contains_iff first second := by
    rw [Std.TreeMap.contains_emptyc]
    simp [Numbering.Meet]
  meetAt_of_mem h := by
    rw [Std.TreeMap.getD_emptyc] at h
    cases h
  exists_of_meetAt hi := by cases hi

/-- One more interchange. -/
theorem step (h : StationsOf n seen map) {changes : List (Nat × Nat)}
    (hchanges : n.changesAt interchange = .ok changes) :
    StationsOf n (seen ++ [interchange])
      (changes.foldl (fun map (i, j) => add map interchange ⟨i, j⟩) map) where
  contains_iff first second := by
    rw [contains_foldl_add, Numbering.mem_changesAt_iff hchanges, h.contains_iff, or_comm]
    simp [Numbering.Meet, or_and_right, exists_or]
  meetAt_of_mem {first second i} hi := by
    rw [getD_foldl_add] at hi
    rw [List.mem_append, List.mem_singleton]
    split at hi
    · next hchange =>
      have hmeet := (Numbering.mem_changesAt_iff hchanges).mp hchange
      rcases mem_addOnce hi with hi | rfl
      · exact ⟨.inl (h.meetAt_of_mem hi).1, (h.meetAt_of_mem hi).2⟩
      · exact ⟨.inr rfl, hmeet⟩
    · exact ⟨.inl (h.meetAt_of_mem hi).1, (h.meetAt_of_mem hi).2⟩
  exists_of_meetAt {first second i} hi hmeet := by
    rw [getD_foldl_add]
    rw [List.mem_append, List.mem_singleton] at hi
    rcases hi with hi | rfl
    · obtain ⟨known, hmem, hstation⟩ := h.exists_of_meetAt hi hmeet
      split
      · exact ⟨known, subset_addOnce _ hmem, hstation⟩
      · exact ⟨known, hmem, hstation⟩
    · rw [if_pos ((Numbering.mem_changesAt_iff hchanges).mpr hmeet)]
      exact station_mem_addOnce i _

end StationsOf

/-! ## All interchanges -/

/-- What every interchange keeps holds after all of them. -/
theorem of_addAll {motive : List Interchange → Std.TreeMap RoutePair (List Interchange) → Prop}
    (hstep : ∀ {seen map interchange changes}, motive seen map →
      n.changesAt interchange = .ok changes → motive (seen ++ [interchange])
        (changes.foldl (fun map (i, j) => add map interchange ⟨i, j⟩) map))
    {map' : Std.TreeMap RoutePair (List Interchange)} (h : motive seen map)
    (hmap : addAll n map interchanges = .ok map') : motive (seen ++ interchanges) map' := by
  induction interchanges generalizing seen map with
  | nil =>
    cases hmap
    rw [List.append_nil]
    exact h
  | cons i interchanges ih =>
    simp only [addAll, Fault.bind_eq_ok_iff] at hmap
    obtain ⟨changes, hchanges, hmap⟩ := hmap
    have hrest := ih (hstep h hchanges) hmap
    rw [List.append_assoc] at hrest
    exact hrest

/-- What holds of no interchanges and is kept by every one holds of a built map. -/
theorem of_build {motive : List Interchange → Std.TreeMap RoutePair (List Interchange) → Prop}
    (hstep : ∀ {seen map interchange changes}, motive seen map →
      n.changesAt interchange = .ok changes → motive (seen ++ [interchange])
        (changes.foldl (fun map (i, j) => add map interchange ⟨i, j⟩) map))
    (hempty : motive [] ∅) {s : ChangeStations} (h : build n interchanges = .ok s) :
    motive interchanges s.stations := by
  simp only [build, Fault.bind_eq_ok_iff] at h
  obtain ⟨map, hmap, h⟩ := h
  cases h
  exact of_addAll hstep hempty hmap

/-- **The built map is that of its interchanges.** -/
theorem stationsOf_build {s : ChangeStations} (h : build n interchanges = .ok s) :
    StationsOf n interchanges s.stations :=
  of_build (fun h hchanges => h.step hchanges) (StationsOf.empty n) h

/-- A pair has a station exactly if it meets somewhere. -/
theorem has_iff {s : ChangeStations} (h : build n interchanges = .ok s) {first second : Nat} :
    s.has ⟨first, second⟩ = true ↔ n.Meet interchanges first second :=
  (stationsOf_build h).contains_iff first second

/-- The stations of a pair are among the interchanges. -/
theorem mem_of_mem_servedBy {s : ChangeStations} (h : build n interchanges = .ok s)
    {modes : ModeSet} {i : Interchange} (hi : i ∈ s.servedBy pair modes) : i ∈ interchanges :=
  ((stationsOf_build h).meetAt_of_mem (List.mem_filter.mp hi).1).1

theorem exists_addAll_iff (map : Std.TreeMap RoutePair (List Interchange)) :
    (∃ map', addAll n map interchanges = .ok map') ↔
      ∀ i ∈ interchanges, ∃ changes, n.changesAt i = .ok changes := by
  induction interchanges generalizing map with
  | nil => simp [addAll]
  | cons i interchanges ih =>
    rw [addAll, List.forall_mem_cons]
    cases n.changesAt i with
    | error fault => simp [bind, Except.bind]
    | ok changes => simpa [bind, Except.bind] using ih _

/-- The map is built where the direct changes are found at every interchange. -/
theorem exists_build_iff : (∃ s, build n interchanges = .ok s) ↔
    ∀ i ∈ interchanges, ∃ changes, n.changesAt i = .ok changes := by
  rw [← exists_addAll_iff ∅, build]
  cases addAll n ∅ interchanges <;> simp [bind, Except.bind, pure, Except.pure]

/-- The map is built wherever the routes at the interchanges are numbered. -/
theorem exists_build (h : ∀ i ∈ interchanges, n.Covers i) :
    ∃ s, build n interchanges = .ok s :=
  exists_build_iff.mpr fun i hi => Numbering.exists_changesAt (h i hi)

end TransitChanges.ChangeStations
