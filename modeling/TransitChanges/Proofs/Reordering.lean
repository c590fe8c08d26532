import Mathlib.Data.List.Forall2
import TransitChanges.Proofs.SameVersion
import TransitChanges.Proofs.Sorting

/-!
# The order in which a timetable lists things

A timetable lists its routes, its interchanges, and at each interchange the routes that set down and
pick up.  None of these orders is one that passengers know of, and none of them shows in what is
recorded.  The version and the numbering are sorted.  The degrees depend on which routes meet, and
the intermediate routes on the degrees.

One order does decide something: where the interchanges of a pair are kept, a station that is listed
twice is kept as it was first.  That is why the stations of a pair are compared only where no
station is listed twice (`ChangeStations.exists_servedBy_of_relisted`).

* `Version.of_relisted`: the version of a timetable.
* `Numbering.build_of_perm`: its numbering.
* `Connections.exists_build_iff_of_relisted`: it is refused in every order, or in none.
* `Connections.degrees_eq_of_relisted`: its degrees.
-/

namespace TransitChanges

open Bits

/-! ## Interchanges listed again -/

namespace Interchange

/-- The same interchange, its routes in some other order. -/
structure Reordered (i j : Interchange) : Prop where
  station_eq : i.station = j.station
  dropoffs : i.dropoffs.Perm j.dropoffs
  pickups : i.pickups.Perm j.pickups

/-- The interchanges of the first list are listed again in the second, in some other order, and so
are the routes at each. -/
def Relisted (is js : List Interchange) : Prop :=
  ∃ mid, List.Forall₂ Reordered is mid ∧ mid.Perm js

variable {i j : Interchange} {is js : List Interchange}

namespace Reordered

theorem symm (h : Reordered i j) : Reordered j i :=
  ⟨h.station_eq.symm, h.dropoffs.symm, h.pickups.symm⟩

/-- The modes of an interchange do not depend on the order of its routes. -/
theorem servesAny_eq (h : Reordered i j) (modes : ModeSet) : i.servesAny modes = j.servesAny modes := by
  have hserves (mode : Mode) : i.serves mode = true ↔ j.serves mode = true := by
    simp only [serves_iff, h.dropoffs.mem_iff, h.pickups.mem_iff]
  rw [Bool.eq_iff_iff, servesAny, servesAny, ModeSet.intersects_iff, ModeSet.intersects_iff]
  exact exists_congr fun mode => and_congr_left fun _ => hserves mode

end Reordered

namespace Relisted

theorem symm (h : Relisted is js) : Relisted js is := by
  obtain ⟨mid, hsame, hperm⟩ := h
  have hback : List.Forall₂ Reordered mid is :=
    .flip (hsame.imp fun _ _ hij => hij.symm)
  have hcomp : Relation.Comp (List.Forall₂ Reordered) List.Perm js is := by
    rw [List.forall₂_comp_perm_eq_perm_comp_forall₂]
    exact ⟨mid, hperm.symm, hback⟩
  exact hcomp

/-- Every interchange is listed again. -/
theorem exists_mem (h : Relisted is js) (hi : i ∈ is) : ∃ j ∈ js, Reordered i j := by
  obtain ⟨mid, hsame, hperm⟩ := h
  have hmid : ∃ j ∈ mid, Reordered i j := by
    clear hperm
    induction hsame with
    | nil => cases hi
    | @cons a b is mid hab _ ih =>
      rcases List.mem_cons.mp hi with rfl | hi
      · exact ⟨b, List.mem_cons_self, hab⟩
      · obtain ⟨j, hj, hij⟩ := ih hi
        exact ⟨j, List.mem_cons_of_mem _ hj, hij⟩
  obtain ⟨j, hj, hij⟩ := hmid
  exact ⟨j, hperm.mem_iff.mp hj, hij⟩

/-- What is the same of reordered interchanges is listed again, whatever the order. -/
theorem map_perm (h : Relisted is js) {α : Type} {f : Interchange → α}
    (hf : ∀ i j, Reordered i j → f i = f j) : (is.map f).Perm (js.map f) := by
  obtain ⟨mid, hsame, hperm⟩ := h
  have hmap : is.map f = mid.map f := by
    clear hperm
    induction hsame with
    | nil => rfl
    | cons hab _ ih => rw [List.map_cons, List.map_cons, hf _ _ hab, ih]
  rw [hmap]
  exact hperm.map f

/-- A property of interchanges that does not depend on the order of their routes holds of all that
are listed, or of all that are listed again. -/
theorem forall_iff (h : Relisted is js) {P : Interchange → Prop}
    (hP : ∀ i j, Reordered i j → (P i ↔ P j)) : (∀ i ∈ is, P i) ↔ ∀ j ∈ js, P j := by
  constructor
  · intro hall j hj
    obtain ⟨i, hi, hji⟩ := h.symm.exists_mem hj
    exact (hP j i hji).mpr (hall i hi)
  · intro hall i hi
    obtain ⟨j, hj, hij⟩ := h.exists_mem hi
    exact (hP i j hij).mpr (hall j hj)

end Relisted
end Interchange

/-! ## The version -/

namespace InterchangeVersion

/-- The order of versions of interchanges, as a comparison. -/
def order : InterchangeVersion → InterchangeVersion → Ordering :=
  compareLex (compareOn station) (compareLex (compareOn dropoffs) (compareOn pickups))

instance : Std.TransCmp order :=
  inferInstanceAs (Std.TransCmp (compareLex _ (compareLex _ _)))

theorem namesLe_eq_isLE (as bs : List RouteId) : namesLe as bs = (compare as bs).isLE := by
  induction as generalizing bs with
  | nil => cases bs <;> rfl
  | cons a as ih =>
    cases bs with
    | nil => rfl
    | cons b bs =>
      rw [namesLe, List.compare_eq_compareLex, List.compareLex_cons_cons]
      cases compare a b with
      | lt => rfl
      | eq => exact ih bs
      | gt => rfl

theorem order_eq (a b : InterchangeVersion) : order a b = (compare a.station b.station).then
    ((compare a.dropoffs b.dropoffs).then (compare a.pickups b.pickups)) := rfl

theorem le_eq_isLE (a b : InterchangeVersion) : le a b = (order a b).isLE := by
  rw [le, order_eq, namesLe_eq_isLE, namesLe_eq_isLE]
  cases compare a.station b.station with
  | lt => rfl
  | gt => rfl
  | eq =>
    dsimp only
    rw [Ordering.eq_then]
    by_cases hdropoffs : a.dropoffs = b.dropoffs
    · have hself : compare b.dropoffs b.dropoffs = .eq := Std.ReflCmp.compare_self
      rw [if_pos hdropoffs, hdropoffs, hself, Ordering.eq_then]
    · rw [if_neg hdropoffs]
      cases horder : compare a.dropoffs b.dropoffs with
      | lt => rfl
      | eq => exact absurd (Std.LawfulEqOrd.eq_of_compare horder) hdropoffs
      | gt => rfl

/-- The order tells different versions apart. -/
theorem eq_of_order_eq {a b : InterchangeVersion} (h : order a b = .eq) : a = b := by
  rw [order_eq, Ordering.then_eq_eq, Ordering.then_eq_eq] at h
  obtain ⟨hstation, hdropoffs, hpickups⟩ := h
  cases a
  cases b
  cases Std.LawfulEqOrd.eq_of_compare hstation
  cases Std.LawfulEqOrd.eq_of_compare hdropoffs
  cases Std.LawfulEqOrd.eq_of_compare hpickups
  rfl

/-- The names of routes are sorted alike in every order. -/
theorem sortedNames_of_perm {routes routes' : List Route} (h : routes.Perm routes') :
    sortedNames routes = sortedNames routes' :=
  mergeSort_eq_of_perm compare (fun _ _ => rfl) (h.map Route.id)
    fun _ _ _ _ heq => Name.compare_eq_iff.mp heq

theorem of_reordered {i j : Interchange} (h : i.Reordered j) : of i = of j := by
  rw [of, of, h.station_eq, sortedNames_of_perm h.dropoffs, sortedNames_of_perm h.pickups]

end InterchangeVersion

section Sources

variable {source source' : RouteSource}
  (hnodup : (source.routes.map Route.id).Nodup) (hroutes : source.routes.Perm source'.routes)
include hnodup hroutes

/-- Routes of different names are sorted alike in every order. -/
theorem sorted_eq_of_perm : (source.routes.mergeSort fun r s => r.id.le s.id) =
    source'.routes.mergeSort fun r s => r.id.le s.id := by
  refine mergeSort_eq_of_perm (compareOn Route.id) (fun _ _ => rfl) hroutes ?_
  intro r hr s hs heq
  exact List.inj_on_of_nodup_map hnodup hr hs (Name.compare_eq_iff.mp heq)

/-- **The version of a timetable** does not depend on the order in which it lists things. -/
theorem Version.of_relisted {is js : List Interchange} (hlisted : Interchange.Relisted is js) :
    Version.of source.routes is = Version.of source'.routes js := by
  have hinterchanges : (is.map InterchangeVersion.of).mergeSort InterchangeVersion.le =
      (js.map InterchangeVersion.of).mergeSort InterchangeVersion.le :=
    mergeSort_eq_of_perm InterchangeVersion.order InterchangeVersion.le_eq_isLE
      (hlisted.map_perm fun _ _ => InterchangeVersion.of_reordered)
      fun _ _ _ _ => InterchangeVersion.eq_of_order_eq
  rw [Version.of, Version.of, sorted_eq_of_perm hnodup hroutes, hinterchanges]

/-- **The numbering of a timetable** does not depend on the order in which it lists its routes, nor
does it that there are too many. -/
theorem Numbering.build_of_perm : build source = build source' := by
  rw [build, build, sorted_eq_of_perm hnodup hroutes, hroutes.length_eq]

end Sources

/-! ## The tables -/

namespace Numbering

variable {n : Numbering} {i j : Interchange} {is js : List Interchange}

theorem meetAt_iff_of_reordered (h : i.Reordered j) (first second : Nat) :
    n.MeetAt i first second ↔ n.MeetAt j first second := by
  simp only [MeetAt, h.dropoffs.mem_iff, h.pickups.mem_iff]

/-- Which routes meet does not depend on the order of interchanges. -/
theorem meet_iff_of_relisted (h : Interchange.Relisted is js) (first second : Nat) :
    n.Meet is first second ↔ n.Meet js first second := by
  constructor
  · rintro ⟨i, hi, hmeet⟩
    obtain ⟨j, hj, hij⟩ := h.exists_mem hi
    exact ⟨j, hj, (meetAt_iff_of_reordered hij first second).mp hmeet⟩
  · rintro ⟨j, hj, hmeet⟩
    obtain ⟨i, hi, hji⟩ := h.symm.exists_mem hj
    exact ⟨i, hi, (meetAt_iff_of_reordered hji first second).mp hmeet⟩

/-- Nor does it whether the direct changes at an interchange are found. -/
theorem exists_changesAt_iff_of_reordered (h : i.Reordered j) :
    (∃ changes, n.changesAt i = .ok changes) ↔ ∃ changes, n.changesAt j = .ok changes := by
  rw [exists_changesAt_iff, exists_changesAt_iff]
  simp only [h.dropoffs.mem_iff, h.pickups.mem_iff]

end Numbering

/-- Where no station is listed twice, every station of a pair is one of it in any other order. -/
theorem ChangeStations.exists_servedBy_of_relisted {n : Numbering} {is js : List Interchange}
    {s s' : ChangeStations} (hlisted : Interchange.Relisted is js)
    (hstations : (js.map Interchange.station).Nodup) (hs : build n is = .ok s)
    (hs' : build n js = .ok s') {pair : RoutePair} {modes : ModeSet} {i : Interchange}
    (hi : i ∈ s.servedBy pair modes) : ∃ j ∈ s'.servedBy pair modes, j.station = i.station := by
  obtain ⟨hmem, hserves⟩ := List.mem_filter.mp hi
  obtain ⟨hlist, hmeet⟩ := (stationsOf_build hs).meetAt_of_mem hmem
  obtain ⟨j, hj, hij⟩ := hlisted.exists_mem hlist
  -- the station that is kept for the pair is the only one listed under its name
  obtain ⟨known, hknown, hstation⟩ := (stationsOf_build hs').exists_of_meetAt hj
    ((Numbering.meetAt_iff_of_reordered hij _ _).mp hmeet)
  have hlisted' := ((stationsOf_build hs').meetAt_of_mem hknown).1
  obtain rfl := List.inj_on_of_nodup_map hstations hlisted' hj hstation
  refine ⟨known, List.mem_filter.mpr ⟨hknown, ?_⟩, hij.station_eq.symm⟩
  rw [← hij.servesAny_eq]
  exact hserves

namespace Connections

variable {source source' : RouteSource} {is js : List Interchange} {t t' : Connections}
  (hnodup : (source.routes.map Route.id).Nodup) (hroutes : source.routes.Perm source'.routes)

section

variable (ht : build source is = .ok t) (ht' : build source' js = .ok t')
include hnodup hroutes ht ht'

theorem numbering_eq_of_perm : t.numbering = t'.numbering := by
  have hn := (isBuilt_of_build ht).1
  rw [Numbering.build_of_perm hnodup hroutes, (isBuilt_of_build ht').1] at hn
  exact (Except.ok.inj hn).symm

end

variable (hlisted : Interchange.Relisted is js)
include hnodup hroutes hlisted

/-- **A timetable is refused in every order, or in none.** -/
theorem exists_build_iff_of_relisted :
    (∃ t, build source is = .ok t) ↔ ∃ t, build source' js = .ok t := by
  rw [exists_build_iff, exists_build_iff, Numbering.build_of_perm hnodup hroutes]
  refine exists_congr fun n => and_congr_right fun _ => ?_
  exact hlisted.forall_iff fun i j hij => Numbering.exists_changesAt_iff_of_reordered hij

variable (ht : build source is = .ok t) (ht' : build source' js = .ok t')
include ht ht'

/-- **The degrees do not depend on the order of a timetable.** -/
theorem degrees_eq_of_relisted : t.degrees = t'.degrees := by
  have hnumbering := numbering_eq_of_perm hnodup hroutes ht ht'
  obtain ⟨hn, hbuilt⟩ := isBuilt_of_build ht
  obtain ⟨hn', hbuilt'⟩ := isBuilt_of_build ht'
  have halike : t.numbering.Alike t'.numbering := Numbering.alike_of_build
    (congrArg Version.routes (Version.of_relisted hnodup hroutes hlisted)) hn hn'
  refine Degrees.eq_of_levels_eq hnumbering ?_
  refine Degrees.levels_eq_of_linked halike hbuilt.degrees hbuilt'.degrees fun i j => ?_
  rw [hnumbering]
  exact and_congr_left fun _ => Numbering.meet_iff_of_relisted hlisted i j

/-- Nor do the intermediate routes. -/
theorem vias_eq_of_relisted : t.vias = t'.vias := by
  have hnumbering := numbering_eq_of_perm hnodup hroutes ht ht'
  have hdegrees := degrees_eq_of_relisted hnodup hroutes hlisted ht ht'
  rw [(isBuilt_of_build ht).2.vias, (isBuilt_of_build ht').2.vias, hnumbering, hdegrees]

end Connections
end TransitChanges
