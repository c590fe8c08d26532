import TransitChanges.Proofs.DirectChanges
import TransitChanges.Proofs.Rounds
import TransitChanges.SampleCity

/-!
# Degrees are least numbers of changes

What the rounds compute is put back into the words of the timetable.  Two indexed routes are
*linked* if they meet at an interchange and share a date; a chain of links that starts at a route
counts if every route on it shares a date with that first one.  The degree of a pair is the least
number of links of such a chain, up to `maxDegree`.

Linked routes are found by the indexes of their names.  Where the timetable serves two routes under
one name, the name has the index of the last of them, and the others are linked to nothing, although
routes of their name meet others.  Where names are not repeated the index and the name come to the
same (`linked_iff_linkedByName`).

* `get_level_iff`: the pairs of a degree.
* `degreeOf_eq_some_iff`, `degreeOf_eq_none_iff`: the degree of a pair.
* `allDegrees_eq`: a pair has one degree at most.
-/

namespace TransitChanges

open Bits Chain SampleCity

namespace Numbering

/-- Two indexed routes are linked: one can change between them somewhere, on some date. -/
def Linked (n : Numbering) (interchanges : List Interchange) (first second : Nat) : Prop :=
  n.Meet interchanges first second ∧ n.sharesDates first second = true

/-- The numbers of changes by which one can get from a route to another along links, such that every
route on the way shares a date with the one started from. -/
def changeCounts (n : Numbering) (link : Nat → Nat → Prop) (start finish : Nat) : Set Nat :=
  lengths (fun first second => link first second ∧ n.sharesDates start second = true) start finish

/-- Two indexed routes are linked by name: routes of their names meet at an interchange. -/
def LinkedByName (n : Numbering) (interchanges : List Interchange) (first second : Nat) : Prop :=
  ∃ r s : Route, n.routes[first]? = some r ∧ n.routes[second]? = some s ∧
    (∃ interchange ∈ interchanges, ∃ dropoff ∈ interchange.dropoffs,
      ∃ pickup ∈ interchange.pickups, dropoff.id = r.id ∧ pickup.id = s.id ∧
        Interchange.joins dropoff pickup = true) ∧
    n.sharesDates first second = true

/-- Where names are not repeated, the links of names are those of indexes. -/
theorem linked_iff_linkedByName {n : Numbering} {source : RouteSource}
    (hn : build source = .ok n) (hnodup : (source.routes.map Route.id).Nodup)
    {interchanges : List Interchange} {first second : Nat} :
    n.Linked interchanges first second ↔ n.LinkedByName interchanges first second := by
  constructor
  · rintro ⟨⟨i, hi, dropoff, hdropoff, pickup, hpickup, hfirst, hsecond, hjoins⟩, hshared⟩
    obtain ⟨r, hr, hdropoffId⟩ := namesKept_of_build hn hfirst
    obtain ⟨s, hs, hpickupId⟩ := namesKept_of_build hn hsecond
    exact ⟨r, s, hr, hs, ⟨i, hi, dropoff, hdropoff, pickup, hpickup, hdropoffId.symm,
      hpickupId.symm, hjoins⟩, hshared⟩
  · rintro ⟨r, s, hr, hs, ⟨i, hi, dropoff, hdropoff, pickup, hpickup, hdropoffId, hpickupId,
      hjoins⟩, hshared⟩
    have hfirst := (indexOf_eq_ok_iff_of_nodup hn hnodup).mpr ⟨r, hr, hdropoffId.symm⟩
    have hsecond := (indexOf_eq_ok_iff_of_nodup hn hnodup).mpr ⟨s, hs, hpickupId.symm⟩
    exact ⟨⟨i, hi, dropoff, hdropoff, pickup, hpickup, hfirst, hsecond, hjoins⟩, hshared⟩

end Numbering

namespace Degrees

variable {n : Numbering} {interchanges : List Interchange} {t : Degrees}

/-! ## Tables built from interchanges -/

theorem numbering_of_build {shared : BitMatrix} (ht : build n shared interchanges = .ok t) :
    t.numbering = n := by
  simp only [build, Fault.bind_eq_ok_iff] at ht
  obtain ⟨changes, -, ht⟩ := ht
  cases ht
  rfl

theorem build_of_directChanges (shared : BitMatrix) {changes : List (Nat × Nat)}
    (h : n.directChanges interchanges = .ok changes) :
    build n shared interchanges = .ok (ofDirect n shared
      (.ofPositions n.size (changes.filter fun (i, j) => shared.get i j))) := by
  rw [build, h]
  rfl

/-- The direct changes that the tables are built on: the pairs that meet and that the mask lets
through. -/
theorem exists_direct_of_build {shared : BitMatrix} (ht : build n shared interchanges = .ok t) :
    ∃ direct : BitMatrix, t = ofDirect n shared direct ∧ direct.size = n.size ∧
      ∀ i j, direct.get i j = true ↔
        (n.Meet interchanges i j ∧ shared.get i j = true) ∧ i < n.size ∧ j < n.size := by
  simp only [build, Fault.bind_eq_ok_iff] at ht
  obtain ⟨changes, hchanges, ht⟩ := ht
  cases ht
  refine ⟨_, rfl, ?_, fun i j => ?_⟩
  · exact BitMatrix.size_ofPositions ..
  · rw [BitMatrix.get_ofPositions, Bool.and_eq_true, Bool.and_eq_true, decide_eq_true_eq,
      decide_eq_true_eq, List.contains_iff_mem, List.mem_filter,
      Numbering.mem_directChanges_iff hchanges]

/-- Where names are told apart, the tables are what the rounds make of direct changes. -/
theorem exists_isDirect_of_build (hn : n.NamesApart) {shared : BitMatrix}
    (ht : build n shared interchanges = .ok t) :
    ∃ direct : BitMatrix, t = ofDirect n shared direct ∧ IsDirect shared direct ∧
      ∀ i j, direct.get i j = true ↔
        (n.Meet interchanges i j ∧ shared.get i j = true) ∧ i < n.size ∧ j < n.size := by
  obtain ⟨direct, rfl, hsize, hget⟩ := exists_direct_of_build ht
  refine ⟨direct, rfl, ⟨fun i => ?_, fun {i j} h => ?_, fun {i j} h => ?_⟩, hget⟩
  · rw [← Bool.not_eq_true, hget]
    exact fun h => Numbering.ne_of_meet hn h.1.1 rfl
  · exact ((hget i j).mp h).1.2
  · rw [hsize]
    exact ((hget i j).mp h).2.2

/-- **The pairs of a degree are those at that least number of changes.** -/
theorem get_level_iff (hn : n.NamesKept) (ht : build n n.sharedDates interchanges = .ok t)
    {d : Nat} (hpos : 1 ≤ d) (hle : d ≤ maxDegree) (i j : Nat) :
    (t.level d).get i j = true ↔ IsLeast (n.changeCounts (n.Linked interchanges) i j) d := by
  obtain ⟨direct, rfl, hdirect, hget⟩ := exists_isDirect_of_build hn.apart ht
  have hlinked (i j : Nat) : direct.get i j = true ↔ n.Linked interchanges i j := by
    rw [hget, Numbering.get_sharedDates, ← Numbering.Linked]
    exact and_iff_left_of_imp fun h => Numbering.lt_size_of_meet hn h.1
  have hstep : StepFrom n.sharedDates direct i =
      fun x y => n.Linked interchanges x y ∧ n.sharesDates i y = true := by
    funext x y
    rw [StepFrom, hlinked, Numbering.get_sharedDates]
  rw [get_level_ofDirect n hdirect hpos hle, chainLengths, hstep, Numbering.changeCounts]

/-- The pairs of the first degree are the linked ones. -/
theorem get_level_one_iff (hn : n.NamesKept) (ht : build n n.sharedDates interchanges = .ok t)
    {i j : Nat} : (t.level 1).get i j = true ↔ n.Linked interchanges i j := by
  rw [get_level_iff hn ht (Nat.le_refl 1) (by decide), Numbering.changeCounts, isLeast_iff, one_iff]
  constructor
  · rintro ⟨hstep, -⟩
    exact hstep.1
  · intro hlinked
    refine ⟨⟨hlinked, hlinked.2⟩, fun k hk hchain => ?_⟩
    obtain rfl : k = 0 := by omega
    exact Numbering.ne_of_meet hn.apart hlinked.1 (zero_iff.mp hchain)

/-! ## Reading a degree -/

theorem mem_all {d : Nat} : d ∈ all ↔ 1 ≤ d ∧ d ≤ maxDegree := by
  rw [all, List.mem_range'_1]
  omega

/-- No more changes are recorded than are computed. -/
theorem le_of_degreeOf {pair : RoutePair} {d : Nat} (h : t.degreeOf pair = some d) :
    d ≤ maxDegree := by
  unfold degreeOf at h
  split at h
  · cases h
    exact Nat.zero_le _
  · have hmem := List.mem_of_find?_eq_some h
    rw [all, List.mem_range'_1] at hmem
    omega

/-- Where a test picks out one entry at most, the entries that pass it are the first one. -/
theorem filter_eq_toList_find? {l : List Nat} {p : Nat → Bool} (hl : l.Nodup)
    (hunique : ∀ x ∈ l, ∀ y ∈ l, p x = true → p y = true → x = y) :
    l.filter p = (l.find? p).toList := by
  cases h : l.find? p with
  | none =>
    rw [Option.toList_none, List.filter_eq_nil_iff]
    exact List.find?_eq_none.mp h
  | some d =>
    have hd := List.find?_some h
    have hmem := List.mem_of_find?_eq_some h
    rw [Option.toList_some, ← List.perm_singleton]
    refine (List.perm_ext_iff_of_nodup (hl.filter p) (List.nodup_singleton d)).mpr fun x => ?_
    rw [List.mem_filter, List.mem_singleton]
    constructor
    · rintro ⟨hx, hp⟩
      exact hunique x hx d hmem hp hd
    · rintro rfl
      exact ⟨hmem, hd⟩

section Masked

variable {shared : BitMatrix}

/-- Only one degree has a pair. -/
theorem eq_of_get_level (hn : n.NamesApart) (ht : build n shared interchanges = .ok t)
    {a b d e : Nat} (hd : d ∈ all) (he : e ∈ all) (hatd : t.isAt d ⟨a, b⟩ = true)
    (hate : t.isAt e ⟨a, b⟩ = true) : d = e := by
  obtain ⟨hdpos, hdle⟩ := mem_all.mp hd
  obtain ⟨hepos, hele⟩ := mem_all.mp he
  obtain ⟨direct, rfl, hdirect, -⟩ := exists_isDirect_of_build hn ht
  have hdleast := (get_level_ofDirect n hdirect hdpos hdle a b).mp hatd
  have heleast := (get_level_ofDirect n hdirect hepos hele a b).mp hate
  exact hdleast.unique heleast

/-- The degrees at which a pair is recorded are the one that is found first. -/
theorem filter_isAt_eq (hn : n.NamesApart) (ht : build n shared interchanges = .ok t)
    (a b : Nat) :
    all.filter (fun d => t.isAt d ⟨a, b⟩) = (all.find? fun d => t.isAt d ⟨a, b⟩).toList :=
  filter_eq_toList_find? List.nodup_range' fun _ hd _ he => eq_of_get_level hn ht hd he

/-- The degree of a pair of different routes is the one at which it is recorded. -/
theorem degreeOf_eq_some_iff_of_ne (hn : n.NamesApart)
    (ht : build n shared interchanges = .ok t) {a b d : Nat} (hab : a ≠ b) :
    t.degreeOf ⟨a, b⟩ = some d ↔ (1 ≤ d ∧ d ≤ maxDegree) ∧ t.isAt d ⟨a, b⟩ = true := by
  rw [degreeOf, if_neg (by simpa [RoutePair.isSame] using hab), ← Option.mem_toList,
    ← filter_isAt_eq hn ht, List.mem_filter, mem_all]

/-- A pair is recorded at its degree, from 1 on. -/
theorem degreeOf_eq_some_iff_isAt (hn : n.NamesApart)
    (ht : build n shared interchanges = .ok t) {a b d : Nat} (hpos : 1 ≤ d)
    (hle : d ≤ maxDegree) : t.degreeOf ⟨a, b⟩ = some d ↔ t.isAt d ⟨a, b⟩ = true := by
  by_cases hab : a = b
  · subst hab
    obtain ⟨direct, rfl, hdirect, -⟩ := exists_isDirect_of_build hn ht
    rw [degreeOf_self, Option.some.injEq, isAt, get_level_ofDirect n hdirect hpos hle]
    refine iff_of_false (by omega) fun hleast => ?_
    have hzero := hleast.2 (show 0 ∈ chainLengths _ _ a a from refl)
    omega
  · rw [degreeOf_eq_some_iff_of_ne hn ht hab]
    exact and_iff_right ⟨hpos, hle⟩

end Masked

variable (hn : n.NamesKept) (ht : build n n.sharedDates interchanges = .ok t)

include hn ht in
/-- **The degree of a pair is its least number of changes, up to the largest degree.** -/
theorem degreeOf_eq_some_iff {a b d : Nat} : t.degreeOf ⟨a, b⟩ = some d ↔
    d ≤ maxDegree ∧ IsLeast (n.changeCounts (n.Linked interchanges) a b) d := by
  by_cases hab : a = b
  · subst hab
    have hzero : IsLeast (n.changeCounts (n.Linked interchanges) a a) 0 :=
      isLeast_iff.mpr ⟨refl, fun k hk => absurd hk (Nat.not_lt_zero k)⟩
    rw [degreeOf_self, Option.some.injEq]
    constructor
    · rintro rfl
      exact ⟨Nat.zero_le _, hzero⟩
    · rintro ⟨-, hleast⟩
      exact hzero.unique hleast
  · rw [degreeOf_eq_some_iff_of_ne hn.apart ht hab]
    constructor
    · rintro ⟨⟨hpos, hle⟩, hat⟩
      exact ⟨hle, (get_level_iff hn ht hpos hle a b).mp hat⟩
    · rintro ⟨hle, hleast⟩
      have hpos : 1 ≤ d := by
        refine Nat.one_le_iff_ne_zero.mpr ?_
        rintro rfl
        exact hab (zero_iff.mp hleast.1)
      exact ⟨⟨hpos, hle⟩, (get_level_iff hn ht hpos hle a b).mpr hleast⟩

include hn ht in
/-- A pair has no degree if no number of changes up to the largest degree is enough. -/
theorem degreeOf_eq_none_iff {a b : Nat} : t.degreeOf ⟨a, b⟩ = none ↔
    ∀ k ∈ n.changeCounts (n.Linked interchanges) a b, maxDegree < k := by
  rw [Option.eq_none_iff_forall_ne_some]
  simp only [ne_eq, degreeOf_eq_some_iff hn ht]
  constructor
  · intro hnone k hk
    obtain ⟨d, hdk, hleast⟩ := exists_isLeast hk
    have hd : ¬ d ≤ maxDegree := fun hle => hnone d ⟨hle, hleast⟩
    omega
  · rintro hfar d ⟨hle, hleast⟩
    have hlt := hfar d hleast.1
    omega

/-- The degrees of a pair of different routes are the one that it has, if any. -/
theorem allDegrees_eq (hn : n.NamesKept) (ht : build n n.sharedDates interchanges = .ok t)
    {a b : Nat} (hab : a ≠ b) : t.allDegrees ⟨a, b⟩ = .ok (t.degreeOf ⟨a, b⟩).toList := by
  have hsame : ¬ (RoutePair.mk a b).isSame = true := by simpa [RoutePair.isSame] using hab
  rw [allDegrees, if_neg hsame, degreeOf, if_neg hsame, filter_isAt_eq hn.apart ht]

/-! ## What the tables record -/

/-- **A pair is recorded at the least number of changes between its routes, and at no other.**  The
links are those of the indexes that names lead to, and where names are not repeated those of the
names. -/
theorem recorded_iff_isLeast {source : RouteSource} (hn : Numbering.build source = .ok n)
    (ht : build n n.sharedDates interchanges = .ok t) (a b : Nat) :
    (∀ d, 1 ≤ d → d ≤ maxDegree → (t.isAt d ⟨a, b⟩ = true ↔
      a ≠ b ∧ IsLeast (n.changeCounts (n.Linked interchanges) a b) d)) ∧
    t.degreeOf ⟨a, a⟩ = some 0 ∧
    (∀ d, t.degreeOf ⟨a, b⟩ = some d ↔
      d ≤ maxDegree ∧ IsLeast (n.changeCounts (n.Linked interchanges) a b) d) ∧
    (t.degreeOf ⟨a, b⟩ = none ↔
      ∀ k ∈ n.changeCounts (n.Linked interchanges) a b, maxDegree < k) ∧
    (a ≠ b → t.allDegrees ⟨a, b⟩ = .ok (t.degreeOf ⟨a, b⟩).toList) ∧
    ((source.routes.map Route.id).Nodup → n.changeCounts (n.Linked interchanges) a b =
      n.changeCounts (n.LinkedByName interchanges) a b) := by
  have hkept := Numbering.namesKept_of_build hn
  refine ⟨fun d hpos hle => ?_, degreeOf_self t a, fun d => degreeOf_eq_some_iff hkept ht,
    degreeOf_eq_none_iff hkept ht, allDegrees_eq hkept ht, fun hnodup => ?_⟩
  · rw [isAt, get_level_iff hkept ht hpos hle]
    refine (and_iff_right_of_imp ?_).symm
    rintro hleast rfl
    have hle := hleast.2 (show 0 ∈ _ from refl)
    omega
  · have hlink : n.Linked interchanges = n.LinkedByName interchanges := by
      funext x y
      exact propext (Numbering.linked_iff_linkedByName hn hnodup)
    rw [hlink]

/-! ## Repeated names -/

/-- A timetable that serves two routes under the name `A`. -/
def repeatedNames : RouteSource where
  routes := [⟨named "A", "first", .tram, year, .all⟩, ⟨named "A", "last", .tram, year, .all⟩,
    ⟨named "B", "other", .tram, year, .all⟩]
  count := 3
  find? _ := none

/-- Its numbering. -/
def repeatedNumbering : Numbering :=
  .ofSorted repeatedNames.routes

/-- One can change from `A` to `B`. -/
def changeFromRepeated : Interchange where
  station := named "S"
  dropoffs := [⟨named "A", "first", .tram, year, .all⟩]
  pickups := [⟨named "B", "other", .tram, year, .all⟩]

theorem build_repeatedNames : Numbering.build repeatedNames = .ok repeatedNumbering := by
  rw [Numbering.build_of_le (by decide), List.mergeSort_of_pairwise (by decide)]
  rfl

theorem directChanges_changeFromRepeated :
    repeatedNumbering.directChanges [changeFromRepeated] = .ok [(1, 2)] := by
  rfl

/-- Only the last route named `A` is linked. -/
theorem linked_changeFromRepeated {first second : Nat} :
    repeatedNumbering.Linked [changeFromRepeated] first second ↔ first = 1 ∧ second = 2 := by
  rw [Numbering.Linked, ← Numbering.mem_directChanges_iff directChanges_changeFromRepeated,
    List.mem_singleton, Prod.mk.injEq]
  refine and_iff_left_of_imp ?_
  rintro ⟨rfl, rfl⟩
  rfl

/-- A link is a least number of changes. -/
theorem isLeast_one {link : Nat → Nat → Prop} {a b : Nat} (hlink : link a b)
    (hshared : n.sharesDates a b = true) (hab : a ≠ b) : IsLeast (n.changeCounts link a b) 1 := by
  refine isLeast_iff.mpr ⟨one_iff.mpr ⟨hlink, hshared⟩, fun k hk hchain => ?_⟩
  obtain rfl : k = 0 := by omega
  exact hab (zero_iff.mp hchain)

/-- The last route of a repeated name is recorded. -/
theorem last_of_repeated_name_recorded :
    Numbering.build repeatedNames = .ok repeatedNumbering ∧
    ∃ t, build repeatedNumbering repeatedNumbering.sharedDates [changeFromRepeated] = .ok t ∧
      t.isAt 1 ⟨1, 2⟩ = true ∧ t.allDegrees ⟨1, 2⟩ = .ok [1] := by
  have hbuild := build_of_directChanges repeatedNumbering.sharedDates
    directChanges_changeFromRepeated
  obtain ⟨hat, -, hdegree, -, hall, -⟩ := recorded_iff_isLeast build_repeatedNames hbuild 1 2
  have hleast := isLeast_one (n := repeatedNumbering)
    (linked_changeFromRepeated.mpr ⟨rfl, rfl⟩) rfl (by decide)
  refine ⟨build_repeatedNames, _, hbuild, ?_, ?_⟩
  · exact (hat 1 (by decide) (by decide)).mpr ⟨by decide, hleast⟩
  · rw [hall (by decide), (hdegree 1).mpr ⟨by decide, hleast⟩]
    rfl

/-- **The other routes of a repeated name are not**, though routes of their name meet others. -/
theorem repeated_name_not_recorded :
    Numbering.build repeatedNames = .ok repeatedNumbering ∧
    ∃ t, build repeatedNumbering repeatedNumbering.sharedDates [changeFromRepeated] = .ok t ∧
      ¬ (t.isAt 1 ⟨0, 2⟩ = true ↔ 0 ≠ 2 ∧ IsLeast (repeatedNumbering.changeCounts
        (repeatedNumbering.LinkedByName [changeFromRepeated]) 0 2) 1) := by
  have hbuild := build_of_directChanges repeatedNumbering.sharedDates
    directChanges_changeFromRepeated
  refine ⟨build_repeatedNames, _, hbuild, fun hclaim => ?_⟩
  have hnamed : repeatedNumbering.LinkedByName [changeFromRepeated] 0 2 :=
    ⟨_, _, rfl, rfl, ⟨_, List.mem_singleton_self _, _, List.mem_singleton_self _, _,
      List.mem_singleton_self _, rfl, rfl, rfl⟩, rfl⟩
  have hat := hclaim.mpr ⟨by decide, isLeast_one hnamed rfl (by decide)⟩
  have hleast := (get_level_iff (Numbering.namesKept_of_build build_repeatedNames) hbuild
    (by decide) (by decide) 0 2).mp hat
  have hlinked := linked_changeFromRepeated.mp (one_iff.mp hleast.1).1
  exact absurd hlinked.1 (by decide)

end Degrees
end TransitChanges
