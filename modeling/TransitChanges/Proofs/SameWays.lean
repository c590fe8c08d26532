import TransitChanges.Proofs.Comparing
import TransitChanges.Proofs.Reordering
import TransitChanges.SampleCity

/-!
# Ways that cannot be told apart

The stations of a pair are kept in the order in which the timetable lists them, so a pair has
different ways over timetables that list things differently.  The trees differ in the order of the
stations at a choice and in nothing else: they have the same number of changes, and whatever
stations operate, both are open or neither is (`Ways.Agrees`).

* `Ways.Agrees.ofStations`, `Ways.Agrees.both`, `Ways.Agrees.ofWays`: every part that trees are made
  of keeps agreement.
* `Connections.SameStations.waysFor`: the ways of a pair.
* `Connections.sameStations_of_relisted`: what a timetable records in any order.
* `Connections.builds_relisted`: all of it together.
-/

namespace TransitChanges

open Bits

/-! ## Trees -/

namespace Ways

theorem isNoWay_ofStations {Station : Type} (stations : List Station) :
    (ofStations stations).isNoWay = stations.isEmpty := by
  unfold ofStations
  split <;> simp_all [isNoWay]

/-- Two trees have the same number of changes, and both are open or neither is, whichever stations
operate. -/
structure Agrees (w w' : Ways Interchange) : Prop where
  depth_eq : w.depth = w'.depth
  isNoWay_eq : w.isNoWay = w'.isNoWay
  isOpen_eq (operates : StationId → Bool) :
    w.isOpen (fun i => operates i.station) = w'.isOpen fun i => operates i.station

namespace Agrees

theorem refl (w : Ways Interchange) : Agrees w w :=
  ⟨rfl, rfl, fun _ => rfl⟩

/-- Two lists of interchanges at the same stations. -/
theorem ofStations {is js : List Interchange}
    (h : ∀ station, (∃ i ∈ is, i.station = station) ↔ ∃ j ∈ js, j.station = station) :
    Agrees (ofStations is) (ofStations js) := by
  have hnil : is = [] ↔ js = [] := by
    constructor
    · rintro rfl
      refine List.eq_nil_iff_forall_not_mem.mpr fun j hj => ?_
      obtain ⟨i, hi, -⟩ := (h j.station).mpr ⟨j, hj, rfl⟩
      cases hi
    · rintro rfl
      refine List.eq_nil_iff_forall_not_mem.mpr fun i hi => ?_
      obtain ⟨j, hj, -⟩ := (h i.station).mp ⟨i, hi, rfl⟩
      cases hj
  constructor
  · simp only [depth_ofStations, hnil]
  · rw [isNoWay_ofStations, isNoWay_ofStations, Bool.eq_iff_iff, List.isEmpty_iff, List.isEmpty_iff,
      hnil]
  · intro operates
    rw [isOpen_ofStations, isOpen_ofStations, Bool.eq_iff_iff, List.any_eq_true, List.any_eq_true]
    constructor
    · rintro ⟨i, hi, hoperates⟩
      obtain ⟨j, hj, hstation⟩ := (h i.station).mp ⟨i, hi, rfl⟩
      exact ⟨j, hj, hstation ▸ hoperates⟩
    · rintro ⟨j, hj, hoperates⟩
      obtain ⟨i, hi, hstation⟩ := (h j.station).mpr ⟨j, hj, rfl⟩
      exact ⟨i, hi, hstation ▸ hoperates⟩

theorem both {v v' w w' : Ways Interchange} (hv : Agrees v v') (hw : Agrees w w') :
    Agrees (both v w) (both v' w') where
  depth_eq := by rw [depth, depth, hv.depth_eq, hw.depth_eq]
  isNoWay_eq := rfl
  isOpen_eq operates := by rw [isOpen_both, isOpen_both, hv.isOpen_eq, hw.isOpen_eq]

theorem deepest_eq {ways ways' : List (Ways Interchange)} (h : List.Forall₂ Agrees ways ways')
    (most : Changes) : deepest most ways = deepest most ways' := by
  induction h generalizing most with
  | nil => rfl
  | cons hw _ ih => rw [deepest, deepest, hw.depth_eq, ih]

theorem any {ways ways' : List (Ways Interchange)} (h : List.Forall₂ Agrees ways ways') :
    Agrees (any ways) (any ways') where
  depth_eq := by
    cases h with
    | nil => rfl
    | cons hw hways => rw [depth, depth, hw.depth_eq, deepest_eq hways]
  isNoWay_eq := rfl
  isOpen_eq operates := by
    rw [isOpen_any, isOpen_any]
    induction h with
    | nil => rfl
    | cons hw _ ih => rw [List.any_cons, List.any_cons, hw.isOpen_eq, ih]

/-- Alternatives agree with those that they agree with one by one. -/
theorem ofWays {ways ways' : List (Ways Interchange)} (h : List.Forall₂ Agrees ways ways') :
    Agrees (ofWays ways) (ofWays ways') := by
  have hkept : List.Forall₂ Agrees (ways.filter fun w => !w.isNoWay)
      (ways'.filter fun w => !w.isNoWay) :=
    List.rel_filter (fun w w' hw => by simp [hw.isNoWay_eq]) h
  unfold Ways.ofWays
  revert hkept
  generalize (ways.filter fun w => !w.isNoWay) = kept
  generalize (ways'.filter fun w => !w.isNoWay) = kept'
  intro hkept
  cases hkept with
  | nil => exact refl noWay
  | cons hw hways => exact any (.cons hw hways)

end Agrees
end Ways

/-! ## Expansions -/

namespace Connections

open Fault (SameOr)

/-- Tables that differ in the order of the interchanges of a pair and in nothing else. -/
structure SameStations (t t' : Connections) : Prop where
  degrees_eq : t.degrees = t'.degrees
  vias_eq : t.vias = t'.vias
  has_eq (pair : RoutePair) : t.stations.has pair = t'.stations.has pair
  servedBy_iff (pair : RoutePair) (modes : ModeSet) (station : StationId) :
    (∃ i ∈ t.stations.servedBy pair modes, i.station = station) ↔
      ∃ i ∈ t'.stations.servedBy pair modes, i.station = station

/-- Intermediate routes that are reached and left by ways that agree. -/
theorem sameOr_waysBy {before before' after after' : Nat → Except Fault (Ways Interchange)}
    (hbefore : ∀ via, SameOr Ways.Agrees (before via) (before' via))
    (hafter : ∀ via, SameOr Ways.Agrees (after via) (after' via)) (vias : List Nat) :
    SameOr (List.Forall₂ Ways.Agrees) (waysBy before after vias) (waysBy before' after' vias) := by
  induction vias with
  | nil => exact .answered .nil
  | cons via vias ih =>
    refine (hbefore via).bind fun first first' hfirst => ?_
    rw [hfirst.isNoWay_eq]
    split
    · exact ih
    · refine (hafter via).bind fun second second' hsecond => ?_
      refine ih.bind fun rest rest' hrest => ?_
      exact .answered (.cons (hfirst.both hsecond) hrest)

namespace SameStations

variable {t t' : Connections} (h : t.SameStations t')
include h

theorem numbering_eq : t.numbering = t'.numbering := by
  rw [numbering, numbering, h.degrees_eq]

theorem directWays (modes : ModeSet) (pair : RoutePair) :
    SameOr Ways.Agrees (t.directWays modes pair) (t'.directWays modes pair) := by
  rw [Connections.directWays, Connections.directWays, h.has_eq, h.numbering_eq]
  split
  · exact .answered (.ofStations (h.servedBy_iff pair modes))
  · exact .refl Ways.Agrees.refl _

theorem expand (gate : BitMatrix) (modes : ModeSet) (further : Nat) (pair : RoutePair) :
    SameOr Ways.Agrees (t.expand gate modes further pair) (t'.expand gate modes further pair) := by
  induction further generalizing pair with
  | zero => exact h.directWays modes pair
  | succ further ih =>
    rw [Connections.expand, Connections.expand, h.vias_eq, h.numbering_eq]
    refine (SameOr.refl (fun _ => rfl) _).bind ?_
    rintro vias _ rfl
    refine (sameOr_waysBy (fun via => ih ⟨pair.first, via⟩)
      (fun via => h.directWays modes ⟨via, pair.second⟩) _).bind fun ways ways' hways => ?_
    exact .answered (.ofWays hways)

/-- **Both tables expand every pair into ways that agree**, or refuse it for the same cause. -/
theorem waysFor (gate : BitMatrix) (modes : ModeSet) (pair : RoutePair) :
    SameOr Ways.Agrees (t.waysFor gate modes pair) (t'.waysFor gate modes pair) := by
  rw [Connections.waysFor, Connections.waysFor, h.degrees_eq]
  split
  · split
    · exact h.expand gate modes _ pair
    · exact .answered (.refl .noWay)
  · exact .answered (.refl .noWay)

end SameStations

/-! ## Timetables in any order -/

variable {source source' : RouteSource} {is js : List Interchange}
  (hnodup : (source.routes.map Route.id).Nodup) (hroutes : source.routes.Perm source'.routes)
  (hlisted : Interchange.Relisted is js)
include hnodup hroutes hlisted

/-- What is recorded of a timetable differs in the order of the interchanges of a pair only, if no
station is listed twice. -/
theorem sameStations_of_relisted (hstations : (is.map Interchange.station).Nodup)
    {t t' : Connections} (ht : build source is = .ok t) (ht' : build source' js = .ok t') :
    t.SameStations t' := by
  have hnumbering := numbering_eq_of_perm hnodup hroutes ht ht'
  have hs := (isBuilt_of_build ht).2.stations
  have hs' := (isBuilt_of_build ht').2.stations
  rw [← hnumbering] at hs'
  have hstations' : (js.map Interchange.station).Nodup :=
    (hlisted.map_perm fun _ _ hij => hij.station_eq).nodup_iff.mp hstations
  constructor
  · exact degrees_eq_of_relisted hnodup hroutes hlisted ht ht'
  · exact vias_eq_of_relisted hnodup hroutes hlisted ht ht'
  · intro pair
    rw [Bool.eq_iff_iff, ChangeStations.has_iff hs, ChangeStations.has_iff hs']
    exact Numbering.meet_iff_of_relisted hlisted _ _
  · intro pair modes station
    constructor
    · rintro ⟨i, hi, rfl⟩
      exact ChangeStations.exists_servedBy_of_relisted hlisted hstations' hs hs' hi
    · rintro ⟨j, hj, rfl⟩
      exact ChangeStations.exists_servedBy_of_relisted hlisted.symm hstations hs' hs hj

/-- **Nothing depends on the order in which a timetable lists things.**  Its version and its
numbering are the same in every order, its tables are built in every order or in none, and they have
the same degrees and intermediate routes.  If no station is listed twice, every pair has ways of the
same number of changes through every gate and in all modes, open to the same stations. -/
theorem builds_relisted :
    Version.of source.routes is = Version.of source'.routes js ∧
    Numbering.build source = Numbering.build source' ∧
    ((∃ t, build source is = .ok t) ↔ ∃ t', build source' js = .ok t') ∧
    ∀ t t', build source is = .ok t → build source' js = .ok t' →
      t.degrees = t'.degrees ∧ t.vias = t'.vias ∧
      ((is.map Interchange.station).Nodup → ∀ gate modes pair,
        ∃ w w', t.waysFor gate modes pair = .ok w ∧ t'.waysFor gate modes pair = .ok w' ∧
          w.Agrees w') := by
  refine ⟨Version.of_relisted hnodup hroutes hlisted, Numbering.build_of_perm hnodup hroutes,
    exists_build_iff_of_relisted hnodup hroutes hlisted, fun t t' ht ht' => ?_⟩
  refine ⟨degrees_eq_of_relisted hnodup hroutes hlisted ht ht',
    vias_eq_of_relisted hnodup hroutes hlisted ht ht', fun hstations gate modes pair => ?_⟩
  have hsame := sameStations_of_relisted hnodup hroutes hlisted hstations ht ht'
  obtain ⟨w, hw, -⟩ := (isBuilt_of_build ht).2.exists_waysFor gate modes pair.first pair.second
  obtain ⟨w', hw', -⟩ := (isBuilt_of_build ht').2.exists_waysFor gate modes pair.first pair.second
  exact ⟨w, w', hw, hw', (hsame.waysFor gate modes pair).of_ok hw hw'⟩

end Connections

/-- A source that lists its routes the other way round. -/
def RouteSource.turned (source : RouteSource) : RouteSource :=
  { source with routes := source.routes.reverse }

theorem RouteSource.perm_turned (source : RouteSource) :
    source.routes.Perm source.turned.routes :=
  (List.reverse_perm _).symm

/-- An interchange with its routes the other way round. -/
def Interchange.turned (i : Interchange) : Interchange :=
  ⟨i.station, i.dropoffs.reverse, i.pickups.reverse⟩

theorem Interchange.relisted_turned (is : List Interchange) :
    Relisted is (is.map turned).reverse := by
  refine ⟨is.map turned, ?_, (List.reverse_perm _).symm⟩
  rw [List.forall₂_map_right_iff, List.forall₂_same]
  intro i _
  exact ⟨rfl, (List.reverse_perm _).symm, (List.reverse_perm _).symm⟩

/-- The sample city has the same tables if all that it lists is listed the other way round. -/
theorem Connections.builds_turned_sampleCity :
    (SampleCity.network.interchanges.map Interchange.station).Nodup ∧
    ∃ t t', build SampleCity.network.source SampleCity.network.interchanges = .ok t ∧
      build SampleCity.network.source.turned
        (SampleCity.network.interchanges.map Interchange.turned).reverse = .ok t' ∧
      t.degrees = t'.degrees ∧ t.vias = t'.vias ∧
      ∀ gate modes pair, ∃ w w', t.waysFor gate modes pair = .ok w ∧
        t'.waysFor gate modes pair = .ok w' ∧ w.Agrees w' := by
  have hstations : (SampleCity.network.interchanges.map Interchange.station).Nodup := by decide
  have hnodup := Network.nodup_source (Network.known_ofEdits
    (SampleCity.routes.map .route ++ SampleCity.stops))
  obtain ⟨-, -, hbuilt, htables⟩ := builds_relisted hnodup SampleCity.network.source.perm_turned
    (Interchange.relisted_turned SampleCity.network.interchanges)
  have hsize : SampleCity.network.routes.size ≤ maxRoutes := by decide
  obtain ⟨t, ht⟩ := Network.exists_connections (Network.known_ofEdits _) hsize
  obtain ⟨t', ht'⟩ := hbuilt.mp ⟨t, ht⟩
  obtain ⟨hdegrees, hvias, hways⟩ := htables t t' ht ht'
  exact ⟨hstations, t, t', ht, ht', hdegrees, hvias, hways hstations⟩

end TransitChanges
