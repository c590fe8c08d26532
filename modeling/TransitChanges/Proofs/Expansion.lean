import TransitChanges.Connections
import TransitChanges.Proofs.ChangeStations
import TransitChanges.Proofs.Vias
import TransitChanges.Proofs.Ways

/-!
# Expanding a recorded pair

Degrees, stations and intermediate routes are three tables, and an expansion looks up each entry of
one by entries of another.  In tables that were built together (`IsBuilt`) every look-up finds its
entry, because each rests on the same links: a pair of the first degree is linked and so has
stations, and a pair of a higher degree has an intermediate route that is recorded one degree nearer
and linked to its second.

What the expansion of a pair stands for is then read off its recursion.  Its chains of stations are
those along chains of links of the recorded number (`mem_chains_iff`), where the gate lets one go
from the first route to every other.

* `exists_expand`: recorded pairs of built tables expand, and to what.
* `mem_of_waysFor`: an expansion has no stations but those of the interchanges.
* `exists_waysFor`: every pair of built tables has its ways.
-/

namespace TransitChanges.Connections

open Bits Chain

/-! ## Intermediate routes in turn -/

section WaysBy

variable {before after : Nat → Except Fault (Ways Interchange)} {vias : List Nat}

theorem exists_waysBy (hbefore : ∀ via ∈ vias, ∃ w, before via = .ok w)
    (hafter : ∀ via ∈ vias, ∃ w, after via = .ok w) :
    ∃ ways, waysBy before after vias = .ok ways := by
  induction vias with
  | nil => exact ⟨[], rfl⟩
  | cons via vias ih =>
    obtain ⟨first, hfirst⟩ := hbefore via List.mem_cons_self
    obtain ⟨second, hsecond⟩ := hafter via List.mem_cons_self
    obtain ⟨ways, hways⟩ := ih (fun v hv => hbefore v (List.mem_cons_of_mem _ hv))
      (fun v hv => hafter v (List.mem_cons_of_mem _ hv))
    cases hnone : first.isNoWay with
    | true =>
      refine ⟨ways, ?_⟩
      simp only [waysBy, hfirst, hnone, hways, bind, Except.bind, if_true]
    | false =>
      refine ⟨.both first second :: ways, ?_⟩
      simp [waysBy, hfirst, hsecond, hnone, hways, bind, Except.bind, pure, Except.pure]

theorem mem_waysBy_iff {ways : List (Ways Interchange)}
    (h : waysBy before after vias = .ok ways) {w : Ways Interchange} :
    w ∈ ways ↔ ∃ via ∈ vias, ∃ first second, before via = .ok first ∧ first.isNoWay = false ∧
      after via = .ok second ∧ w = .both first second := by
  induction vias generalizing ways with
  | nil =>
    cases h
    simp
  | cons via vias ih =>
    simp only [waysBy, Fault.bind_eq_ok_iff] at h
    obtain ⟨first, hfirst, h⟩ := h
    rw [List.exists_mem_cons_iff]
    split at h
    · next hnone =>
      rw [ih h]
      simp [hfirst, hnone]
    · next hsome =>
      simp only [Fault.bind_eq_ok_iff] at h
      obtain ⟨second, hsecond, rest, hrest, h⟩ := h
      cases h
      rw [List.mem_cons, ih hrest]
      simp [hfirst, hsecond, hsome]

end WaysBy

/-! ## Built tables -/

/-- The tables were built together, of one numbering and the same interchanges. -/
structure IsBuilt (t : Connections) (interchanges : List Interchange) : Prop where
  kept : t.numbering.NamesKept
  degrees : Degrees.build t.numbering t.numbering.sharedDates interchanges = .ok t.degrees
  stations : ChangeStations.build t.numbering interchanges = .ok t.stations
  vias : t.vias = Vias.build t.numbering.sharedDates t.degrees

theorem isBuilt_of_build {source : RouteSource} {interchanges : List Interchange} {t : Connections}
    (h : build source interchanges = .ok t) :
    Numbering.build source = .ok t.numbering ∧ t.IsBuilt interchanges := by
  simp only [build, Fault.bind_eq_ok_iff] at h
  obtain ⟨n, hn, stations, hstations, degrees, hdegrees, h⟩ := h
  cases h
  obtain rfl := Degrees.numbering_of_build hdegrees
  exact ⟨hn, Numbering.namesKept_of_build hn, hdegrees, hstations, rfl⟩

/-- Tables are built where the routes are numbered and the direct changes are found at every
interchange. -/
theorem exists_build_iff {source : RouteSource} {interchanges : List Interchange} :
    (∃ t, build source interchanges = .ok t) ↔ ∃ n, Numbering.build source = .ok n ∧
      ∀ i ∈ interchanges, ∃ changes, n.changesAt i = .ok changes := by
  constructor
  · rintro ⟨t, ht⟩
    obtain ⟨hn, ht⟩ := isBuilt_of_build ht
    exact ⟨t.numbering, hn, ChangeStations.exists_build_iff.mp ⟨t.stations, ht.stations⟩⟩
  · rintro ⟨n, hn, hfound⟩
    obtain ⟨stations, hstations⟩ := ChangeStations.exists_build_iff.mpr hfound
    obtain ⟨changes, hchanges⟩ := Numbering.exists_directChanges_iff.mpr hfound
    obtain ⟨degrees, hdegrees⟩ :
        ∃ degrees, Degrees.build n n.sharedDates interchanges = .ok degrees :=
      ⟨_, Degrees.build_of_directChanges n.sharedDates hchanges⟩
    refine ⟨⟨degrees, stations, Vias.build n.sharedDates degrees⟩, ?_⟩
    rw [build, hn]
    dsimp only [bind, Except.bind]
    rw [hstations, hdegrees]
    rfl

/-- Tables are built wherever there are not too many routes and those at the interchanges are
numbered. -/
theorem exists_build {source : RouteSource} {interchanges : List Interchange}
    (hle : source.routes.length ≤ maxRoutes)
    (hcovers : ∀ n, Numbering.build source = .ok n → ∀ i ∈ interchanges, n.Covers i) :
    ∃ t, build source interchanges = .ok t := by
  have hn := Numbering.build_of_le hle
  exact exists_build_iff.mpr ⟨_, hn, fun i hi => Numbering.exists_changesAt (hcovers _ hn i hi)⟩

variable {t : Connections} {interchanges : List Interchange} {gate : BitMatrix} {modes : ModeSet}

/-- One step of an expansion: a link by one of its stations, to a route that may be used together
with the one started from and shares a date with it. -/
def LinkBy (t : Connections) (interchanges : List Interchange) (gate : BitMatrix) (modes : ModeSet)
    (start first : Nat) (station : Interchange) (second : Nat) : Prop :=
  t.numbering.Linked interchanges first second ∧ t.numbering.sharesDates start second = true ∧
    gate.get start second = true ∧ station ∈ t.stations.servedBy ⟨first, second⟩ modes

/-- A step of an expansion is a step that counts as a change. -/
theorem LinkBy.step {start first second : Nat}
    (h : ∃ station, t.LinkBy interchanges gate modes start first station second) :
    t.numbering.Linked interchanges first second ∧ t.numbering.sharesDates start second = true := by
  obtain ⟨station, hlinked, hshared, -, -⟩ := h
  exact ⟨hlinked, hshared⟩

/-- Every direct change from a route that may be used has a station in the modes. -/
def Served (t : Connections) (interchanges : List Interchange) (gate : BitMatrix)
    (modes : ModeSet) : Prop :=
  ∀ start first second, gate.get start first = true →
    t.numbering.Linked interchanges first second → t.stations.servedBy ⟨first, second⟩ modes ≠ []

/-- What the ways of a pair at a degree have to be. -/
structure Expands (t : Connections) (interchanges : List Interchange) (gate : BitMatrix)
    (modes : ModeSet) (first second degree : Nat) (ways : Ways Interchange) : Prop where
  mem_chains_iff (c : List Interchange) : c ∈ ways.chains ↔
    Trail (t.LinkBy interchanges gate modes first) first c second ∧ c.length = degree
  uniform (h : t.Served interchanges gate modes) : ways = .noWay ∨ ways.Uniform degree

/-- A linked pair stands for its stations. -/
theorem expands_ofStations {i j : Nat} (hlinked : t.numbering.Linked interchanges i j)
    (hgate : gate.get i j = true) : t.Expands interchanges gate modes i j 1
      (.ofStations (t.stations.servedBy ⟨i, j⟩ modes)) where
  mem_chains_iff c := by
    rw [Ways.mem_chains_ofStations, Trail.one_iff]
    constructor
    · rintro ⟨station, hstation, rfl⟩
      exact ⟨station, rfl, hlinked, hlinked.2, hgate, hstation⟩
    · rintro ⟨station, rfl, -, -, -, hstation⟩
      exact ⟨station, hstation, rfl⟩
  uniform _ := by
    by_cases hnone : t.stations.servedBy ⟨i, j⟩ modes = []
    · rw [hnone]
      exact .inl rfl
    · exact .inr (Ways.uniform_ofStations hnone)

namespace IsBuilt

variable (h : t.IsBuilt interchanges)

include h in
theorem directWays_eq {first second : Nat} (hlinked : t.numbering.Linked interchanges first second) :
    t.directWays modes ⟨first, second⟩ =
      .ok (.ofStations (t.stations.servedBy ⟨first, second⟩ modes)) := by
  rw [directWays, if_pos ((ChangeStations.has_iff h.stations).mpr hlinked.1)]

section Parts

/-! The parts of a pair at a degree from 2 on: `before` are the ways to an intermediate route, of
one degree less, and the intermediate routes are those that the gate lets through. -/

variable {before : Nat → Except Fault (Ways Interchange)} {vias : List Nat}
  {ways : List (Ways Interchange)} {i j d : Nat}
  (hvias : ∀ via, via ∈ vias ↔ gate.get i via = true ∧
    IsLeast (t.numbering.changeCounts (t.numbering.Linked interchanges) i via) d ∧
      t.numbering.Linked interchanges via j)
  (hbefore : ∀ via ∈ vias, ∃ w, before via = .ok w ∧
    t.Expands interchanges gate modes i via d w)
  (hways : waysBy before (fun via => t.directWays modes ⟨via, j⟩) vias = .ok ways)

include h hvias hbefore hways in
/-- The alternatives of a pair are the ways to an intermediate route with the stations from it. -/
theorem mem_ways_iff (w : Ways Interchange) : w ∈ ways ↔
    ∃ via ∈ vias, ∃ first, before via = .ok first ∧ first.isNoWay = false ∧
      t.Expands interchanges gate modes i via d first ∧
      w = .both first (.ofStations (t.stations.servedBy ⟨via, j⟩ modes)) := by
  rw [mem_waysBy_iff hways]
  constructor
  · rintro ⟨via, hvia, first, second, hfirst, hsome, hsecond, rfl⟩
    obtain ⟨w, hw, hexpands⟩ := hbefore via hvia
    rw [hfirst] at hw
    cases hw
    rw [h.directWays_eq ((hvias via).mp hvia).2.2] at hsecond
    cases hsecond
    exact ⟨via, hvia, first, hfirst, hsome, hexpands, rfl⟩
  · rintro ⟨via, hvia, first, hfirst, hsome, -, rfl⟩
    exact ⟨via, hvia, first, _, hfirst, hsome, h.directWays_eq ((hvias via).mp hvia).2.2, rfl⟩

include h hvias hbefore hways in
/-- The chains of the alternatives are those along links, one longer than before. -/
theorem mem_chains_ofWays_iff (hgate : gate.get i j = true)
    (hleast : IsLeast (t.numbering.changeCounts (t.numbering.Linked interchanges) i j) (d + 1))
    (hpos : 1 ≤ d) (c : List Interchange) : c ∈ (Ways.ofWays ways).chains ↔
      Trail (t.LinkBy interchanges gate modes i) i c j ∧ c.length = d + 1 := by
  have hmem := h.mem_ways_iff hvias hbefore hways
  obtain ⟨_, -, -, hshared⟩ := succ_iff.mp hleast.1
  rw [Ways.mem_chains_ofWays, Trail.succ_iff]
  constructor
  · rintro ⟨w, hw, hc⟩
    obtain ⟨via, hvia, first, -, -, hexpands, rfl⟩ := (hmem w).mp hw
    obtain ⟨start, hstart, last, hlast, rfl⟩ := Ways.mem_chains_both.mp hc
    obtain ⟨station, hstation, rfl⟩ := Ways.mem_chains_ofStations.mp hlast
    obtain ⟨htrail, hlength⟩ := (hexpands.mem_chains_iff start).mp hstart
    have hlinked := ((hvias via).mp hvia).2.2
    exact ⟨via, start, station, rfl, hlength, htrail, hlinked, hshared, hgate, hstation⟩
  · rintro ⟨via, start, station, rfl, hlength, htrail, hstep⟩
    -- the route before the last lies on a shortest chain, so it is recorded one degree nearer
    have hvia : via ∈ vias := by
      obtain ⟨k, rfl⟩ := Nat.exists_eq_add_of_le' hpos
      obtain ⟨_, _, _, -, -, -, -, -, hopen, -⟩ := Trail.succ_iff.mp ⟨htrail, hlength⟩
      have hchain : start.length ∈ t.numbering.changeCounts
          (t.numbering.Linked interchanges) i via := htrail.toChain.mono LinkBy.step
      rw [hlength] at hchain
      have hnear := isLeast_of_trans hleast hchain (one_iff.mpr (LinkBy.step ⟨station, hstep⟩))
      exact (hvias via).mpr ⟨hopen, hnear, hstep.1⟩
    obtain ⟨first, hfirst, hexpands⟩ := hbefore via hvia
    have hstart := (hexpands.mem_chains_iff start).mpr ⟨htrail, hlength⟩
    have hw := (hmem _).mpr
      ⟨via, hvia, first, hfirst, Ways.isNoWay_of_mem_chains hstart, hexpands, rfl⟩
    have hlast := Ways.mem_chains_ofStations.mpr ⟨station, hstep.2.2.2, rfl⟩
    exact ⟨_, hw, Ways.mem_chains_both.mpr ⟨start, hstart, [station], hlast, rfl⟩⟩

include h hvias hbefore hways in
/-- Where every change has a station in the modes, no part of an alternative is dead. -/
theorem uniform_of_mem_ways (hserved : t.Served interchanges gate modes) {w : Ways Interchange}
    (hw : w ∈ ways) : w.Uniform (d + 1) := by
  obtain ⟨via, hvia, first, -, hsome, hexpands, rfl⟩ :=
    (h.mem_ways_iff hvias hbefore hways w).mp hw
  obtain ⟨hopen, -, hlinked⟩ := (hvias via).mp hvia
  rcases hexpands.uniform hserved with rfl | huniform
  · cases hsome
  · exact huniform.both (Ways.uniform_ofStations (hserved i via j hopen hlinked))

end Parts

include h in
/-- **Recorded pairs expand.** -/
theorem exists_expand {f i j : Nat} (hle : f + 1 ≤ maxDegree)
    (hat : t.degrees.isAt (f + 1) ⟨i, j⟩ = true) (hgate : gate.get i j = true) :
    ∃ ways, t.expand gate modes f ⟨i, j⟩ = .ok ways ∧
      t.Expands interchanges gate modes i j (f + 1) ways := by
  induction f generalizing j with
  | zero =>
    have hlinked := (Degrees.get_level_one_iff h.kept h.degrees).mp hat
    exact ⟨_, h.directWays_eq hlinked, expands_ofStations hlinked hgate⟩
  | succ f ih =>
    have hleast := (Degrees.get_level_iff h.kept h.degrees (by omega) hle i j).mp hat
    obtain ⟨vias, hbehind, hget⟩ := Vias.exists_behind h.kept h.degrees (Nat.succ_pos f) hle hat
    have hvias (via : Nat) : via ∈ vias.toList.filter (fun via => gate.get i via) ↔
        gate.get i via = true ∧
          IsLeast (t.numbering.changeCounts (t.numbering.Linked interchanges) i via) (f + 1) ∧
            t.numbering.Linked interchanges via j := by
      rw [List.mem_filter, Bitmap.mem_toList, hget, and_comm]
    have hbefore (via : Nat) (hvia : via ∈ vias.toList.filter (fun via => gate.get i via)) :
        ∃ w, t.expand gate modes f ⟨i, via⟩ = .ok w ∧
          t.Expands interchanges gate modes i via (f + 1) w := by
      obtain ⟨hopen, hnear, -⟩ := (hvias via).mp hvia
      refine ih (by omega) ?_ hopen
      exact (Degrees.get_level_iff h.kept h.degrees (by omega) (by omega) i via).mpr hnear
    obtain ⟨ways, hways⟩ := exists_waysBy
      (fun via hvia => (hbefore via hvia).imp fun _ hw => hw.1)
      (fun via hvia => ⟨_, h.directWays_eq ((hvias via).mp hvia).2.2⟩)
    refine ⟨.ofWays ways, ?_, fun c => ?_, fun hserved => ?_⟩
    · rw [expand, h.vias, hbehind]
      dsimp only [bind, Except.bind]
      rw [hways]
      rfl
    · exact h.mem_chains_ofWays_iff hvias hbefore hways hgate hleast (Nat.succ_pos f) c
    · refine Ways.uniform_ofWays fun w hw => ?_
      exact h.uniform_of_mem_ways hvias hbefore hways hserved hw

/-! ## The stations of an expansion -/

include h in
theorem mem_of_directWays {pair : RoutePair} {ways : Ways Interchange}
    (hways : t.directWays modes pair = .ok ways) {i : Interchange} (hi : i ∈ ways.stations) :
    i ∈ interchanges := by
  unfold directWays at hways
  split at hways
  · cases hways
    rw [Ways.stations_ofStations] at hi
    exact ChangeStations.mem_of_mem_servedBy h.stations hi
  · simp only [Fault.bind_eq_ok_iff] at hways
    obtain ⟨_, -, hways⟩ := hways
    cases hways

include h in
theorem mem_of_expand {further : Nat} {pair : RoutePair} {ways : Ways Interchange}
    (hways : t.expand gate modes further pair = .ok ways) {i : Interchange}
    (hi : i ∈ ways.stations) : i ∈ interchanges := by
  induction further generalizing pair ways with
  | zero => exact h.mem_of_directWays hways hi
  | succ further ih =>
    simp only [expand, Fault.bind_eq_ok_iff] at hways
    obtain ⟨vias, -, parts, hparts, hways⟩ := hways
    cases hways
    obtain ⟨w, hw, hi⟩ := Ways.exists_of_mem_stations_ofWays hi
    obtain ⟨via, -, first, second, hfirst, -, hsecond, rfl⟩ := (mem_waysBy_iff hparts).mp hw
    rw [Ways.stations_both, List.mem_append] at hi
    rcases hi with hi | hi
    · exact ih hfirst hi
    · exact h.mem_of_directWays hsecond hi

include h in
/-- **The stations of any ways are among the interchanges.** -/
theorem mem_of_waysFor {pair : RoutePair} {ways : Ways Interchange}
    (hways : t.waysFor gate modes pair = .ok ways) {i : Interchange} (hi : i ∈ ways.stations) :
    i ∈ interchanges := by
  unfold waysFor at hways
  split at hways
  · split at hways
    · exact h.mem_of_expand hways hi
    · cases hways
      rw [Ways.stations] at hi
      cases hi
  · cases hways
    rw [Ways.stations] at hi
    cases hi

/-! ## The ways of any pair -/

include h in
/-- **Every pair has its ways.**  They stand for the chains of links of the recorded number, if the
pair is recorded at one and may be used, and else for nothing. -/
theorem exists_waysFor (gate : BitMatrix) (modes : ModeSet) (i j : Nat) :
    ∃ ways, t.waysFor gate modes ⟨i, j⟩ = .ok ways ∧
    ((gate.get i j = true ∧ ∃ d, t.degrees.degreeOf ⟨i, j⟩ = some (d + 1) ∧
      t.Expands interchanges gate modes i j (d + 1) ways) ∨
    ((∀ d, t.degrees.degreeOf ⟨i, j⟩ = some (d + 1) → gate.get i j = false) ∧ ways = .noWay)) := by
  unfold waysFor
  split
  · next d hdegree =>
    split
    · next hgate =>
      obtain ⟨hle, hleast⟩ := (Degrees.degreeOf_eq_some_iff h.kept h.degrees).mp hdegree
      have hat := (Degrees.get_level_iff h.kept h.degrees (Nat.succ_pos d) hle i j).mpr hleast
      obtain ⟨ways, hways, hexpands⟩ := h.exists_expand hle hat hgate
      exact ⟨ways, hways, .inl ⟨hgate, d, hdegree, hexpands⟩⟩
    · next hgate =>
      exact ⟨.noWay, rfl, .inr ⟨fun _ _ => Bool.not_eq_true _ ▸ hgate, rfl⟩⟩
  · next hnone =>
    exact ⟨.noWay, rfl, .inr ⟨fun d hd => absurd hd (hnone d), rfl⟩⟩

include h in
/-- Ways without a dead part have the recorded number of changes, which is far below the ceiling. -/
theorem depth_eq {pair : RoutePair} {d : Nat} {ways : Ways Interchange}
    (hdegree : t.degrees.degreeOf pair = some d) (huniform : ways.Uniform d) :
    ways.depth = .exactly d := by
  obtain ⟨hle, -⟩ := (Degrees.degreeOf_eq_some_iff h.kept h.degrees).mp hdegree
  have hlt : maxDegree < Changes.ceiling := by decide
  rw [huniform.depth_eq, Changes.counted_of_lt (Nat.lt_of_le_of_lt hle hlt)]

end IsBuilt
end TransitChanges.Connections
