import Mathlib.Data.Nat.Find
import TransitChanges.Proofs.ChangeStations
import TransitChanges.Proofs.Decompositions

/-!
# The stations of a pair and its bit

The direct changes are read off the interchanges twice, once for the matrix of the first degree and
once for the stations where they can be made.  The matrix is cut down to the pairs of routes that
share a date by their indexes, the stations are not.  Where no name is repeated and the routes at
the interchanges are those that are numbered, two routes that meet share a date anyway, so that both
tell the same pairs.

The stations of a pair are listed as the pair first meets at them.  What every interchange keeps is
`FirstOf`; an interchange of a station that is listed adds nothing, since the pair has met there
before.

* `linked_iff_meet`: pairs that meet are linked.
* `firstOf_build`: the stations of a pair are those where it first meets, in this order.
* `size_eq_count`: as many pairs have stations as have a bit.
-/

namespace TransitChanges

open Bits SampleCity

namespace Numbering

variable {n : Numbering} {source : RouteSource} {interchanges seen : List Interchange}
  {first second place : Nat} {i x : Interchange}

/-! ## Routes that are numbered -/

/-- Interchanges of numbered routes are covered. -/
theorem covers_of_mem_routes (hn : build source = .ok n)
    (hroutes : ∀ r ∈ i.dropoffs ++ i.pickups, r ∈ n.routes) : n.Covers i := by
  intro r hr
  obtain ⟨index, hindex⟩ := Array.mem_iff_getElem?.mp (hroutes r (List.mem_append.mpr hr))
  exact exists_indexOf_of_build hn ((mem_routes_of_build hn).mp ⟨index, hindex⟩)

/-- A numbered route has the index of its name. -/
theorem getElem?_of_indexOf (hn : build source = .ok n)
    (hnodup : (source.routes.map Route.id).Nodup) {r : Route} (hr : r ∈ n.routes) {index : Nat}
    (hindex : n.indexOf r.id = .ok index) : n.routes[index]? = some r := by
  obtain ⟨place, hplace⟩ := Array.mem_iff_getElem?.mp hr
  have hindex' := (indexOf_eq_ok_iff_of_nodup hn hnodup).mpr ⟨r, hplace, rfl⟩
  obtain rfl := Except.ok.inj (hindex.symm.trans hindex')
  exact hplace

/-- **Numbered routes that meet are linked.** -/
theorem linked_iff_meet (hn : build source = .ok n)
    (hnodup : (source.routes.map Route.id).Nodup)
    (hroutes : ∀ i ∈ interchanges, ∀ r ∈ i.dropoffs ++ i.pickups, r ∈ n.routes) :
    n.Linked interchanges first second ↔ n.Meet interchanges first second := by
  refine and_iff_left_of_imp ?_
  rintro ⟨i, hi, dropoff, hdropoff, pickup, hpickup, hfirst, hsecond, hjoins⟩
  have hdropoff' := getElem?_of_indexOf hn hnodup
    (hroutes i hi dropoff (List.mem_append_left _ hdropoff)) hfirst
  have hpickup' := getElem?_of_indexOf hn hnodup
    (hroutes i hi pickup (List.mem_append_right _ hpickup)) hsecond
  -- the stations ask in the other order whether the two share a date
  rw [sharesDates, hdropoff', hpickup']
  simp only [Bool.or_eq_true]
  right
  rw [Route.sharesDateWith_comm]
  exact (Interchange.joins_iff.mp hjoins).2

/-! ## Where a pair first meets at a station -/

/-- At a place of a list stands an interchange where two indexed routes meet, and at no interchange
of its station before that do they meet. -/
structure FirstAt (n : Numbering) (interchanges : List Interchange) (first second place : Nat)
    (i : Interchange) : Prop where
  getElem?_eq : interchanges[place]? = some i
  meetAt : n.MeetAt i first second
  not_before : ∀ before < place, ∀ j, interchanges[before]? = some j → j.station = i.station →
    ¬ n.MeetAt j first second

/-- A station is first met at one place. -/
theorem FirstAt.place_eq {j : Interchange} {place' : Nat}
    (h : n.FirstAt interchanges first second place i)
    (h' : n.FirstAt interchanges first second place' j) (hstation : i.station = j.station) :
    place = place' := by
  rcases Nat.lt_trichotomy place place' with hlt | heq | hlt
  · exact absurd h.meetAt (h'.not_before place hlt i h.getElem?_eq hstation)
  · exact heq
  · exact absurd h'.meetAt (h.not_before place' hlt j h'.getElem?_eq hstation.symm)

/-- A pair meets at a station for the first time at some place. -/
theorem exists_firstAt (hi : i ∈ interchanges) (hmeet : n.MeetAt i first second) :
    ∃ place j, n.FirstAt interchanges first second place j ∧ j.station = i.station := by
  classical
  have hexists : ∃ (place : Nat) (j : Interchange), interchanges[place]? = some j ∧
      j.station = i.station ∧ n.MeetAt j first second := by
    obtain ⟨place, hplace⟩ := List.mem_iff_getElem?.mp hi
    exact ⟨place, i, hplace, rfl, hmeet⟩
  obtain ⟨j, hj, hstation, hmeetj⟩ := Nat.find_spec hexists
  refine ⟨Nat.find hexists, j, ⟨hj, hmeetj, fun before hbefore k hk hsame hmeetk => ?_⟩, hstation⟩
  exact Nat.find_min hexists hbefore ⟨k, hk, hsame.trans hstation, hmeetk⟩

/-- The pair meets at an interchange, and has not met at its station before. -/
def IsNew (n : Numbering) (seen : List Interchange) (first second : Nat) (x : Interchange) : Prop :=
  n.MeetAt x first second ∧ ∀ j ∈ seen, j.station = x.station → ¬ n.MeetAt j first second

/-- One more interchange is a first one if it is new, and changes no other. -/
theorem firstAt_append_iff : n.FirstAt (seen ++ [x]) first second place i ↔
    n.FirstAt seen first second place i ∨
      (place = seen.length ∧ i = x) ∧ n.IsNew seen first second x := by
  have hseen {k : Nat} (hk : k < seen.length) : (seen ++ [x])[k]? = seen[k]? :=
    List.getElem?_append_left hk
  constructor
  · rintro ⟨hplace, hmeet, hbefore⟩
    by_cases hlt : place < seen.length
    · refine .inl ⟨(hseen hlt) ▸ hplace, hmeet, fun before hk j hj => ?_⟩
      exact hbefore before hk j ((hseen (hk.trans hlt)).trans hj)
    · have hle := (List.getElem?_eq_some_iff.mp hplace).1
      rw [List.length_append, List.length_singleton] at hle
      obtain rfl : place = seen.length := by omega
      rw [List.getElem?_concat_length, Option.some.injEq] at hplace
      subst hplace
      refine .inr ⟨⟨rfl, rfl⟩, hmeet, fun j hj => ?_⟩
      obtain ⟨before, hk⟩ := List.mem_iff_getElem?.mp hj
      have hlt := (List.getElem?_eq_some_iff.mp hk).1
      exact hbefore before hlt j ((hseen hlt).trans hk)
  · rintro (⟨hplace, hmeet, hbefore⟩ | ⟨⟨rfl, rfl⟩, hmeet, hnew⟩)
    · have hlt := (List.getElem?_eq_some_iff.mp hplace).1
      refine ⟨(hseen hlt).trans hplace, hmeet, fun before hk j hj => ?_⟩
      exact hbefore before hk j ((hseen (hk.trans hlt)) ▸ hj)
    · refine ⟨List.getElem?_concat_length, hmeet, fun before hk j hj => ?_⟩
      rw [hseen hk] at hj
      exact hnew j (List.mem_of_getElem? hj)

end Numbering

namespace ChangeStations

variable {n : Numbering} {seen interchanges : List Interchange} {x : Interchange}
  {first second : Nat} {stations : List Interchange}

/-! ## The stations of a pair -/

/-- The interchanges at which a pair first meets are listed once each, in their order. -/
structure FirstOf (n : Numbering) (seen : List Interchange) (first second : Nat)
    (stations : List Interchange) : Prop where
  nodup : (stations.map Interchange.station).Nodup
  mem_iff (i : Interchange) : i ∈ stations ↔ ∃ place, n.FirstAt seen first second place i
  ordered : stations.Pairwise fun i j => ∀ place place', n.FirstAt seen first second place i →
    n.FirstAt seen first second place' j → place < place'

namespace FirstOf

theorem nil (n : Numbering) (first second : Nat) : FirstOf n [] first second [] where
  nodup := .nil
  mem_iff i := by
    refine iff_of_false List.not_mem_nil ?_
    rintro ⟨place, h⟩
    cases h.getElem?_eq
  ordered := .nil

/-- A station where the pair has met is listed. -/
theorem exists_mem (h : FirstOf n seen first second stations) {i : Interchange} (hi : i ∈ seen)
    (hmeet : n.MeetAt i first second) : ∃ known ∈ stations, known.station = i.station := by
  obtain ⟨place, known, hfirst, hstation⟩ := Numbering.exists_firstAt hi hmeet
  exact ⟨known, (h.mem_iff known).mpr ⟨place, hfirst⟩, hstation⟩

theorem mem_seen (h : FirstOf n seen first second stations) {i : Interchange}
    (hi : i ∈ stations) : i ∈ seen ∧ n.MeetAt i first second := by
  obtain ⟨place, hfirst⟩ := (h.mem_iff i).mp hi
  exact ⟨List.mem_of_getElem? hfirst.getElem?_eq, hfirst.meetAt⟩

/-- An interchange that is not new leaves the stations as they are. -/
theorem of_not_isNew (h : FirstOf n seen first second stations)
    (hnot : ¬ n.IsNew seen first second x) : FirstOf n (seen ++ [x]) first second stations := by
  have hsame (place : Nat) (i : Interchange) : n.FirstAt (seen ++ [x]) first second place i ↔
      n.FirstAt seen first second place i := by
    rw [Numbering.firstAt_append_iff]
    exact or_iff_left fun hnew => hnot hnew.2
  obtain ⟨hnodup, hmem, hordered⟩ := h
  refine ⟨hnodup, fun i => ?_, ?_⟩
  · simp only [hsame, hmem]
  · simpa only [hsame] using hordered

/-- A new interchange comes last. -/
theorem append (h : FirstOf n seen first second stations) (hnew : n.IsNew seen first second x) :
    FirstOf n (seen ++ [x]) first second (stations ++ [x]) := by
  have hlast : n.FirstAt (seen ++ [x]) first second seen.length x :=
    Numbering.firstAt_append_iff.mpr (.inr ⟨⟨rfl, rfl⟩, hnew⟩)
  refine ⟨?_, fun i => ?_, ?_⟩
  · rw [List.map_append, List.nodup_append]
    refine ⟨h.nodup, List.nodup_singleton _, ?_⟩
    rintro _ hleft station hright rfl
    obtain ⟨known, hknown, hstation⟩ := List.mem_map.mp hleft
    obtain ⟨hseen, hmeet⟩ := h.mem_seen hknown
    rw [List.map_singleton, List.mem_singleton] at hright
    exact hnew.2 known hseen (hstation.trans hright) hmeet
  · rw [List.mem_append, List.mem_singleton, h.mem_iff]
    simp only [Numbering.firstAt_append_iff, exists_or]
    refine or_congr_right ?_
    constructor
    · rintro rfl
      exact ⟨_, ⟨rfl, rfl⟩, hnew⟩
    · rintro ⟨_, ⟨-, rfl⟩, -⟩
      rfl
  · have hfirst {place : Nat} {i : Interchange} (hi : i ∈ stations)
        (hat : n.FirstAt (seen ++ [x]) first second place i) :
        n.FirstAt seen first second place i := by
      rcases Numbering.firstAt_append_iff.mp hat with hat | ⟨⟨-, rfl⟩, hnew⟩
      · exact hat
      · obtain ⟨hseen, hmeet⟩ := h.mem_seen hi
        exact absurd hmeet (hnew.2 i hseen rfl)
    refine List.pairwise_append.mpr ⟨?_, List.pairwise_singleton _ _, ?_⟩
    · refine h.ordered.imp_of_mem fun hi hj hlt place place' hat hat' => ?_
      exact hlt place place' (hfirst hi hat) (hfirst hj hat')
    · intro i hi j hj place place' hat hat'
      obtain rfl := List.mem_singleton.mp hj
      obtain rfl := hlast.place_eq hat' rfl
      exact (List.getElem?_eq_some_iff.mp (hfirst hi hat).getElem?_eq).1

/-- What one interchange does to the stations of a pair that meets there. -/
theorem addOnce (h : FirstOf n seen first second stations) (hmeet : n.MeetAt x first second) :
    FirstOf n (seen ++ [x]) first second (addOnce x stations) := by
  unfold ChangeStations.addOnce
  split
  · next hany =>
    simp only [List.any_eq_true, decide_eq_true_eq] at hany
    obtain ⟨known, hknown, hstation⟩ := hany
    obtain ⟨hseen, hmeet'⟩ := h.mem_seen hknown
    exact h.of_not_isNew fun hnew => hnew.2 known hseen hstation hmeet'
  · next hany =>
    refine h.append ⟨hmeet, fun j hj hstation hmeet' => hany ?_⟩
    obtain ⟨known, hknown, hsame⟩ := h.exists_mem hj hmeet'
    rw [List.any_eq_true]
    exact ⟨known, hknown, decide_eq_true (hsame.trans hstation)⟩

/-- The stations of a pair are those where it first meets, and so are those of one more
interchange. -/
theorem step {map : Std.TreeMap RoutePair (List Interchange)}
    (h : FirstOf n seen first second (map.getD ⟨first, second⟩ [])) {changes : List (Nat × Nat)}
    (hchanges : n.changesAt x = .ok changes) :
    FirstOf n (seen ++ [x]) first second
      ((changes.foldl (fun map (i, j) => add map x ⟨i, j⟩) map).getD ⟨first, second⟩ []) := by
  rw [getD_foldl_add]
  have hmeet : (first, second) ∈ changes ↔ n.MeetAt x first second :=
    Numbering.mem_changesAt_iff hchanges
  split
  · next hchange => exact h.addOnce (hmeet.mp hchange)
  · next hchange => exact h.of_not_isNew fun hnew => hchange (hmeet.mpr hnew.1)

end FirstOf

/-- **The stations of a pair are those where it first meets, in this order.** -/
theorem firstOf_build {s : ChangeStations} (h : build n interchanges = .ok s)
    (first second : Nat) :
    FirstOf n interchanges first second (s.stations.getD ⟨first, second⟩ []) := by
  refine of_build (motive := fun seen map => FirstOf n seen first second
    (map.getD ⟨first, second⟩ [])) (fun h hchanges => h.step hchanges) ?_ h
  rw [Std.TreeMap.getD_emptyc]
  exact .nil n first second

/-- As many pairs have stations as meet somewhere. -/
theorem size_eq_count {s : ChangeStations} (h : build n interchanges = .ok s) {m : BitMatrix}
    (hm : ∀ i j, m.get i j = true ↔ n.Meet interchanges i j) : s.size = m.count := by
  have hinjective : Function.Injective fun position : Nat × Nat =>
      RoutePair.mk position.1 position.2 := by
    rintro ⟨i, j⟩ ⟨k, l⟩ heq
    cases heq
    rfl
  have hkeys : s.stations.keys.Nodup := Std.TreeMap.nodup_keys
  rw [size, ← Std.TreeMap.length_keys]
  refine (BitMatrix.count_eq_length hinjective hkeys fun pair => ?_).symm
  rw [Std.TreeMap.mem_keys, ← Std.TreeMap.contains_iff_mem]
  constructor
  · intro hpair
    exact ⟨pair.first, pair.second, (hm _ _).mpr ((has_iff h).mp hpair), rfl⟩
  · rintro ⟨i, j, hget, rfl⟩
    exact (has_iff h).mpr ((hm i j).mp hget)

/-- **The stations of a pair and its bit tell the same changes.**  Where no name is repeated and the
routes at the interchanges are numbered, in whatever order and however often they occur, both tables
are built.  The pairs with stations are those of the first degree, and the stations of a pair in
some modes are the interchanges where the pair first meets at a station, if they are served in one
of the modes, each station once and in the order in which the pair first meets there. -/
theorem build_agrees_with_degrees {source : RouteSource} (hn : Numbering.build source = .ok n)
    (hnodup : (source.routes.map Route.id).Nodup)
    (hroutes : ∀ i ∈ interchanges, ∀ r ∈ i.dropoffs ++ i.pickups, r ∈ n.routes) :
    ∃ t s, Degrees.build n n.sharedDates interchanges = .ok t ∧ build n interchanges = .ok s ∧
      (∀ pair, s.has pair = true ↔ t.isAt 1 pair = true) ∧
      s.size = (t.level 1).count ∧
      ∀ first second modes,
        ((s.servedBy ⟨first, second⟩ modes).map Interchange.station).Nodup ∧
        (∀ i, i ∈ s.servedBy ⟨first, second⟩ modes ↔
          (∃ place, n.FirstAt interchanges first second place i) ∧ i.servesAny modes = true) ∧
        (s.servedBy ⟨first, second⟩ modes).Pairwise fun i j => ∀ place place',
          n.FirstAt interchanges first second place i →
          n.FirstAt interchanges first second place' j → place < place' := by
  have hcovers (i : Interchange) (hi : i ∈ interchanges) : n.Covers i :=
    Numbering.covers_of_mem_routes hn (hroutes i hi)
  obtain ⟨changes, hchanges⟩ := Numbering.exists_directChanges hcovers
  obtain ⟨s, hs⟩ := exists_build hcovers
  have ht := Degrees.build_of_directChanges n.sharedDates hchanges
  refine ⟨_, s, ht, hs, ?_⟩
  have hkept := Numbering.namesKept_of_build hn
  have hbit (i j : Nat) : (Degrees.level _ 1).get i j = true ↔ n.Meet interchanges i j :=
    (Degrees.get_level_one_iff hkept ht).trans (Numbering.linked_iff_meet hn hnodup hroutes)
  refine ⟨fun pair => (has_iff hs).trans (hbit _ _).symm, size_eq_count hs hbit,
    fun first second modes => ?_⟩
  obtain ⟨hstations, hmem, hordered⟩ := firstOf_build hs first second
  refine ⟨?_, fun i => ?_, hordered.filter _⟩
  · exact hstations.sublist (List.filter_sublist.map Interchange.station)
  · rw [servedBy, List.mem_filter, hmem]

end ChangeStations

/-! ## Interchanges that are listed again -/

namespace SampleCity

/-- The interchanges of the city backwards, and then forwards again. -/
def thereAndBack : List Interchange :=
  network.interchanges.reverse ++ network.interchanges

theorem directChanges_thereAndBack : cityNumbering.directChanges thereAndBack =
    .ok [(1, 3), (3, 1), (0, 1), (0, 3), (1, 0), (1, 3), (3, 0), (3, 1), (2, 0), (0, 2), (2, 0),
      (0, 2), (0, 1), (0, 3), (1, 0), (1, 3), (3, 0), (3, 1), (1, 3), (3, 1)] :=
  rfl

/-- One can change from the green line to the bus, wherever that is listed, but not to the pink
line. -/
theorem stations_thereAndBack :
    Numbering.build network.source = .ok cityNumbering ∧
    (network.source.routes.map Route.id).Nodup ∧
    (∀ i ∈ thereAndBack, ∀ r ∈ i.dropoffs ++ i.pickups, r ∈ cityNumbering.routes) ∧
    ∃ s, ChangeStations.build cityNumbering thereAndBack = .ok s ∧ s.size = 8 ∧
      s.has ⟨1, 3⟩ = true ∧ s.has ⟨1, 2⟩ = false ∧
      ((s.servedBy ⟨1, 3⟩ .all).map Interchange.station).Nodup := by
  have hnodup : (network.source.routes.map Route.id).Nodup := by decide
  have hroutes : ∀ i ∈ thereAndBack, ∀ r ∈ i.dropoffs ++ i.pickups,
      r ∈ cityNumbering.routes := by decide +kernel
  obtain ⟨t, s, ht, hs, hhas, hsize, hstations⟩ :=
    ChangeStations.build_agrees_with_degrees build_city hnodup hroutes
  rw [Degrees.build_of_directChanges _ directChanges_thereAndBack] at ht
  cases ht
  refine ⟨build_city, hnodup, hroutes, s, hs, ?_, ?_, ?_, (hstations 1 3 .all).1⟩
  · rw [hsize]
    decide +kernel
  · rw [hhas]
    decide +kernel
  · rw [← Bool.not_eq_true, hhas]
    decide +kernel

end SampleCity
end TransitChanges
