import TransitChanges.Proofs.DepthOfWays
import TransitChanges.Proofs.LiveChains

/-!
# The ways of a pair, station by station

What the tables expand a pair of routes into is told without them.  An *itinerary* is a list of
interchanges with the routes that it leads along: all of them run on the day, each is as many
changes from the first as it stands along the way, and at each interchange one of them sets down and
the next picks up.  The chains of the ways of a pair are the itineraries between its two routes, and
no others (`waysFor_exact`).

The expansion peels such a chain from its end, and tests each route against the one that is started
from alone.  That the routes in between share dates with the first, and are as near to it as they
have to be, is a matter of shortest chains (`Chain.isLeast_of_places`); that every route on the way
runs is seen to by the gate.

* `exists_itinerary_iff`: the labelled chains of links of the recorded number are itineraries.
* `waysFor_exact`: the ways of any pair of a network.
-/

namespace TransitChanges

open Bits Calendar Chain

/-- Interchanges lead from the first route of a pair to the second along the routes `via`, on a date
in some modes. -/
structure Connections.Itinerary (t : Connections) (net : Network) (date : Date) (modes : ModeSet)
    (pair : RoutePair) (stations : List Interchange) (via : Nat → Nat) : Prop where
  starts : via 0 = pair.first
  ends : via stations.length = pair.second
  one_le : 1 ≤ stations.length
  le_max : stations.length ≤ maxDegree
  degree (k : Nat) : k ≤ stations.length → t.degrees.degreeOf ⟨pair.first, via k⟩ = some k
  runs (k : Nat) : k ≤ stations.length →
    ∃ r, t.numbering.routes[via k]? = some r ∧ r.isOffered date modes = true
  change (k : Nat) (hk : k < stations.length) :
    ∃ r s, t.numbering.routes[via k]? = some r ∧ t.numbering.routes[via (k + 1)]? = some s ∧
      stations[k] ∈ net.interchanges ∧ r ∈ stations[k].dropoffs ∧ s ∈ stations[k].pickups ∧
        r.sharesDateWith s = true

namespace Connections.Itinerary

variable {t : Connections} {net : Network} {date : Date} {modes : ModeSet} {pair : RoutePair}
  {stations : List Interchange} {via : Nat → Nat}

/-- An itinerary has as many stations as the pair is changes apart. -/
theorem degree_pair (h : t.Itinerary net date modes pair stations via) :
    t.degrees.degreeOf pair = some stations.length := by
  have hdegree := h.degree stations.length (Nat.le_refl _)
  rw [h.ends] at hdegree
  exact hdegree

end Connections.Itinerary

namespace Planner.IsOf

variable {p : Planner} {net : Network} (h : p.IsOf net) (scope : Scope) {pair : RoutePair}
  {stations : List Interchange} {via : Nat → Nat}

/-- Both ends of an itinerary run. -/
theorem get_gate_of_itinerary
    (hitinerary : p.tables.Itinerary net scope.date scope.modes pair stations via) :
    (p.enquiry scope).gate.get pair.first pair.second = true := by
  obtain ⟨a, ha, hstart⟩ := hitinerary.runs 0 (Nat.zero_le _)
  obtain ⟨b, hb, hfinish⟩ := hitinerary.runs stations.length (Nat.le_refl _)
  rw [hitinerary.starts] at ha
  rw [hitinerary.ends] at hb
  exact (get_gate_iff ha hb scope).mpr ⟨hstart, hfinish⟩

include h in
/-- An itinerary goes by steps of the expansion. -/
theorem linkBy_of_itinerary
    (hitinerary : p.tables.Itinerary net scope.date scope.modes pair stations via) {k : Nat}
    (hk : k < stations.length) :
    p.tables.LinkBy net.interchanges (p.enquiry scope).gate scope.modes pair.first (via k)
      stations[k] (via (k + 1)) := by
  obtain ⟨a, ha, hstart⟩ := hitinerary.runs 0 (Nat.zero_le _)
  obtain ⟨r, hr, hoffered⟩ := hitinerary.runs k (by omega)
  obtain ⟨s, hs, hoffered'⟩ := hitinerary.runs (k + 1) hk
  obtain ⟨r', s', hr', hs', hx, hdropoff, hpickup, hdates⟩ := hitinerary.change k hk
  rw [hr] at hr'
  rw [hs] at hs'
  obtain rfl := Option.some.inj hr'
  obtain rfl := Option.some.inj hs'
  rw [hitinerary.starts] at ha
  -- routes at different degrees are different, and so are their names
  have hne : r.id ≠ s.id := by
    intro hid
    obtain rfl := Network.eq_of_id_eq (h.holds_of_getElem? hr) (h.holds_of_getElem? hs) hid
    have hdegree := hitinerary.degree k (by omega)
    rw [h.eq_of_getElem? hr hs, hitinerary.degree (k + 1) hk, Option.some.injEq] at hdegree
    omega
  have hshares : p.tables.numbering.sharesDates pair.first (via (k + 1)) = true := by
    have hleast := ((Degrees.degreeOf_eq_some_iff h.built.kept h.built.degrees).mp
      (hitinerary.degree (k + 1) hk)).2
    obtain ⟨_, -, -, hshared⟩ := Chain.succ_iff.mp hleast.1
    exact hshared
  rw [Route.sharesDateWith_comm] at hdates
  exact (h.linkBy_iff hr hs ha hstart hoffered).mpr
    ⟨hx, hdropoff, hpickup, Interchange.joins_iff.mpr ⟨hne, hdates⟩, hoffered', hshares⟩

include h in
/-- Steps of the expansion of a pair, as many as it is changes apart, make an itinerary. -/
theorem itinerary_of_linkBy (hdegree : p.tables.degrees.degreeOf pair = some stations.length)
    (hpos : 1 ≤ stations.length)
    (hgate : (p.enquiry scope).gate.get pair.first pair.second = true)
    (hstarts : via 0 = pair.first) (hends : via stations.length = pair.second)
    (hsteps : ∀ k (hk : k < stations.length), p.tables.LinkBy net.interchanges
      (p.enquiry scope).gate scope.modes pair.first (via k) stations[k] (via (k + 1))) :
    p.tables.Itinerary net scope.date scope.modes pair stations via := by
  obtain ⟨hle, hleast⟩ := (Degrees.degreeOf_eq_some_iff h.built.kept h.built.degrees).mp hdegree
  obtain ⟨a, ha, hstart⟩ := (Degrees.get_gate_iff.mp hgate).1
  have hruns (k : Nat) (hk : k ≤ stations.length) :
      ∃ r, p.tables.numbering.routes[via k]? = some r ∧
        r.isOffered scope.date scope.modes = true := by
    cases k with
    | zero =>
      rw [hstarts]
      exact ⟨a, ha, hstart⟩
    | succ k => exact (Degrees.get_gate_iff.mp (hsteps k hk).2.2.1).2
  refine ⟨hstarts, hends, hpos, hle, fun k hk => ?_, hruns, fun k hk => ?_⟩
  · rw [← hstarts, ← hends] at hleast
    rw [← hstarts, Degrees.degreeOf_eq_some_iff h.built.kept h.built.degrees]
    refine ⟨by omega, isLeast_of_places (fun l hl => ?_) hleast hk⟩
    rw [hstarts]
    exact Connections.LinkBy.step ⟨_, hsteps l hl⟩
  · obtain ⟨r, hr, hoffered⟩ := hruns k (by omega)
    obtain ⟨s, hs, -⟩ := hruns (k + 1) hk
    obtain ⟨hx, hdropoff, hpickup, hjoins, -⟩ :=
      (h.linkBy_iff hr hs ha hstart hoffered).mp (hsteps k hk)
    have hdates := (Interchange.joins_iff.mp hjoins).2
    rw [Route.sharesDateWith_comm] at hdates
    exact ⟨r, s, hr, hs, hx, hdropoff, hpickup, hdates⟩

include h in
/-- **The chains that a pair expands to are its itineraries.** -/
theorem exists_itinerary_iff (hgate : (p.enquiry scope).gate.get pair.first pair.second = true)
    {d : Nat} (hdegree : p.tables.degrees.degreeOf pair = some (d + 1)) :
    (∃ via, p.tables.Itinerary net scope.date scope.modes pair stations via) ↔
      Trail (p.tables.LinkBy net.interchanges (p.enquiry scope).gate scope.modes pair.first)
        pair.first stations pair.second ∧ stations.length = d + 1 := by
  constructor
  · rintro ⟨via, hitinerary⟩
    refine ⟨Trail.iff_exists_places.mpr ⟨via, hitinerary.starts, hitinerary.ends,
      fun k hk => h.linkBy_of_itinerary scope hitinerary hk⟩, ?_⟩
    exact Option.some.inj (hitinerary.degree_pair.symm.trans hdegree)
  · rintro ⟨htrail, hlength⟩
    obtain ⟨via, hstarts, hends, hsteps⟩ := Trail.iff_exists_places.mp htrail
    rw [← hlength] at hdegree
    exact ⟨via, h.itinerary_of_linkBy scope hdegree (by omega) hgate hstarts hends hsteps⟩

include h in
/-- **The ways of a pair are its itineraries**, and no part of them is dead. -/
theorem exists_waysFor_itineraries (date : Date) (modes : ModeSet) (pair : RoutePair) :
    ∃ ways, p.tables.waysFor (p.tables.degrees.gate date modes) modes pair = .ok ways ∧
      (∀ c, c ∈ ways.chains ↔ ∃ via, p.tables.Itinerary net date modes pair c via) ∧
      (ways = .noWay ∨ ∃ d, p.tables.degrees.degreeOf pair = some d ∧ ways.Uniform d) := by
  have hserved := h.served ⟨date, .allDay, modes⟩
  obtain ⟨ways, hways, ⟨hgate, d, hdegree, hexpands⟩ | ⟨hnone, rfl⟩⟩ :=
    h.built.exists_waysFor (p.tables.degrees.gate date modes) modes pair.first pair.second
  · refine ⟨ways, hways, fun c => ?_, (hexpands.uniform hserved).imp_right fun huniform =>
      ⟨d + 1, hdegree, huniform⟩⟩
    rw [hexpands.mem_chains_iff]
    exact (h.exists_itinerary_iff ⟨date, .allDay, modes⟩ hgate hdegree).symm
  · refine ⟨.noWay, hways, fun c => ?_, .inl rfl⟩
    rw [Ways.chains, iff_false_left List.not_mem_nil]
    rintro ⟨via, hitinerary⟩
    obtain ⟨d, hd⟩ := Nat.exists_eq_add_of_le' hitinerary.one_le
    have hdegree := hitinerary.degree_pair
    rw [hd] at hdegree
    have hgate := get_gate_of_itinerary ⟨date, .allDay, modes⟩ hitinerary
    exact Bool.false_ne_true ((hnone d hdegree).symm.trans hgate)

end Planner.IsOf

/-! ## Every pair of a network -/

/-- **The ways of any pair of a network stand for its itineraries and for nothing else.**  They have
no dead part and the recorded depth, unless there is no itinerary; then there is no way. -/
theorem Connections.waysFor_exact {edits : List Edit} (honce : Edit.AddOnce edits)
    {tables : Connections}
    (htables : Connections.build (Network.ofEdits edits).source
      (Network.ofEdits edits).interchanges = .ok tables)
    (date : Date) (modes : ModeSet) (pair : RoutePair) :
    ∃ ways, tables.waysFor (tables.degrees.gate date modes) modes pair = .ok ways ∧
      (∀ c, c ∈ ways.chains ↔ ∃ via, tables.Itinerary (.ofEdits edits) date modes pair c via) ∧
      (ways ≠ .noWay → ways.hasDeadPart = false ∧
        ∃ d, tables.degrees.degreeOf pair = some d ∧ ways.depth = .exactly d) ∧
      (ways = .noWay ↔ ¬ ∃ c via, tables.Itinerary (.ofEdits edits) date modes pair c via) := by
  have hof := Planner.isOf_of_build honce htables
  obtain ⟨ways, hways, hchains, hdead⟩ := hof.exists_waysFor_itineraries date modes pair
  refine ⟨ways, hways, hchains, fun hsome => ?_, ?_⟩
  · obtain ⟨d, hdegree, huniform⟩ := hdead.resolve_left hsome
    exact ⟨huniform.hasDeadPart_eq_false, d, hdegree, hof.built.depth_eq hdegree huniform⟩
  · rw [← exists_congr hchains]
    constructor
    · rintro rfl ⟨c, hc⟩
      rw [Ways.chains] at hc
      cases hc
    · intro hnone
      refine hdead.resolve_right ?_
      rintro ⟨d, -, huniform⟩
      exact hnone huniform.exists_mem_chains

/-! ## Three lines in a row -/

namespace Relay

open Detour SampleCity

/-- The second of three lines meets the first at `T` and the last at `U`. -/
def edits : List Edit := [
  .route (line "R1"),
  .route (line "R2"),
  .route (line "R3"),
  .stop "T" "R1",
  .stop "T" "R2",
  .stop "U" "R2",
  .stop "U" "R3"]

/-- The numbering of the lines. -/
def numbering : Numbering :=
  .ofSorted [line "R1", line "R2", line "R3"]

theorem build_numbering : Numbering.build (Network.ofEdits edits).source = .ok numbering := by
  have hroutes : (Network.ofEdits edits).source.routes = [line "R1", line "R2", line "R3"] := rfl
  rw [Numbering.build_of_le (by rw [hroutes]; decide), hroutes,
    List.mergeSort_of_pairwise (by decide)]
  rfl

theorem directChanges_edits : numbering.directChanges (Network.ofEdits edits).interchanges =
    .ok [(0, 1), (1, 0), (1, 2), (2, 1)] :=
  rfl

/-- The first line is as many changes from each of them as it stands before it. -/
theorem degreeOf_eq {tables : Connections}
    (htables : Connections.build (Network.ofEdits edits).source
      (Network.ofEdits edits).interchanges = .ok tables) :
    tables.numbering = numbering ∧ ∀ k ≤ 2, tables.degrees.degreeOf ⟨0, k⟩ = some k := by
  obtain ⟨hn, hbuilt⟩ := Connections.isBuilt_of_build htables
  have hnumbering : tables.numbering = numbering := Except.ok.inj (hn.symm.trans build_numbering)
  have hdegrees := hbuilt.degrees
  rw [hnumbering, Degrees.build_of_directChanges _ directChanges_edits] at hdegrees
  rw [← Except.ok.inj hdegrees]
  exact ⟨hnumbering, by decide +kernel⟩

/-- One gets from the first line to the last by changing at `T` and at `U`. -/
theorem ways_first_to_last : Edit.AddOnce edits ∧
    ∃ tables, Connections.build (Network.ofEdits edits).source
        (Network.ofEdits edits).interchanges = .ok tables ∧
      ∃ ways, tables.waysFor (tables.degrees.gate date .all) .all ⟨0, 2⟩ = .ok ways ∧
        [meeting "T" "R1" "R2", meeting "U" "R2" "R3"] ∈ ways.chains ∧
          ways.depth = .exactly 2 := by
  have honce : Edit.AddOnce edits := by decide
  obtain ⟨tables, htables⟩ := Network.exists_connections (Network.known_ofEdits edits) (by decide)
  obtain ⟨hnumbering, hdegree⟩ := degreeOf_eq htables
  have hroutes (k : Nat) (hk : k ≤ 2) : ∃ r, numbering.routes[k]? = some r ∧
      r.isOffered date .all = true := by
    match k, hk with
    | 0, _ => exact ⟨line "R1", rfl, by decide⟩
    | 1, _ => exact ⟨line "R2", rfl, by decide⟩
    | 2, _ => exact ⟨line "R3", rfl, by decide⟩
  have hitinerary : tables.Itinerary (.ofEdits edits) date .all ⟨0, 2⟩
      [meeting "T" "R1" "R2", meeting "U" "R2" "R3"] id := by
    refine ⟨rfl, rfl, by decide, by decide, hdegree, ?_, fun k hk => ?_⟩
    · rw [hnumbering]
      exact hroutes
    · rw [hnumbering]
      match k, hk with
      | 0, _ => exact ⟨line "R1", line "R2", by decide +revert⟩
      | 1, _ => exact ⟨line "R2", line "R3", by decide +revert⟩
  obtain ⟨ways, hways, hchains, hdepth, -⟩ :=
    Connections.waysFor_exact honce htables date .all ⟨0, 2⟩
  have hchain := (hchains _).mpr ⟨id, hitinerary⟩
  refine ⟨honce, tables, htables, ways, hways, hchain, ?_⟩
  have hsome : ways ≠ .noWay := by
    rintro rfl
    rw [Ways.chains] at hchain
    cases hchain
  obtain ⟨-, d, hd, hdeep⟩ := hdepth hsome
  rw [hdegree 2 (Nat.le_refl 2)] at hd
  rw [hdeep, ← Option.some.inj hd]

end Relay
end TransitChanges
