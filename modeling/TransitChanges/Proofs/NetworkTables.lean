import TransitChanges.Proofs.Enquiry
import TransitChanges.Proofs.NetworkRoutes

/-!
# The tables of a network

Tables speak of indexes and a network of routes.  Where the tables of a planner were built from a
network and the calls of the network are of the routes that it holds (`Planner.IsOf`), the two say
the same: an index is the place of a route and of no other, and what the tables record of two
indexes is what the interchanges provide for between their routes.

* `indexOf_eq_ok_iff`: the index of the name of a route is its place.
* `linked_iff`, `mem_servedBy_iff`: which routes are linked, and by which interchanges.
* `get_gate_iff`: the gate tests whether two routes run.
* `linkBy_iff`: the steps of an expansion.
* `served`: every direct change from a route that runs has a station.
-/

namespace TransitChanges

open Bits Calendar

/-! ## The gate -/

namespace Degrees

variable {t : Degrees} {date : Date} {modes : ModeSet} {i j : Nat}

theorem get_offered_iff : (t.offered date modes).get i = true ↔
    ∃ r, t.numbering.routes[i]? = some r ∧ r.isOffered date modes = true := by
  rw [offered, Bitmap.get_ofPred, Bool.and_eq_true, decide_eq_true_eq]
  cases hr : t.numbering.routes[i]? with
  | none => simp
  | some r =>
    have hlt : i < t.size := (Array.getElem?_eq_some_iff.mp hr).1
    simp [hlt]

/-- The gate lets two indexes through if they are those of routes that both run on the date in a
permitted mode. -/
theorem get_gate_iff : (t.gate date modes).get i j = true ↔
    (∃ r, t.numbering.routes[i]? = some r ∧ r.isOffered date modes = true) ∧
      ∃ s, t.numbering.routes[j]? = some s ∧ s.isOffered date modes = true := by
  rw [gate, BitMatrix.get_ofRows, Bool.and_eq_true, decide_eq_true_eq, ← get_offered_iff,
    ← get_offered_iff]
  constructor
  · rintro ⟨-, hget⟩
    split at hget
    · next hoffered => exact ⟨hoffered, hget⟩
    · rw [Bitmap.get_empty] at hget
      cases hget
  · rintro ⟨hoffered, hget⟩
    rw [if_pos hoffered]
    exact ⟨Bitmap.lt_size_of_get hoffered, hget⟩

end Degrees

/-! ## Planners of networks -/

/-- The planner is that of a network, with tables built from it, and the calls of the network are of
the routes that it holds. -/
structure Planner.IsOf (p : Planner) (net : Network) : Prop where
  known : net.Known
  settled : net.Settled
  numbering : Numbering.build net.source = .ok p.tables.numbering
  built : p.tables.IsBuilt net.interchanges
  service : p.service = net.service

theorem Planner.isOf_of_build {edits : List Edit} (honce : Edit.AddOnce edits)
    {tables : Connections}
    (h : Connections.build (Network.ofEdits edits).source (Network.ofEdits edits).interchanges =
      .ok tables) :
    (Planner.mk tables (Network.ofEdits edits).service).IsOf (.ofEdits edits) := by
  obtain ⟨hn, ht⟩ := Connections.isBuilt_of_build h
  exact ⟨Network.known_ofEdits edits, Network.settled_ofEdits honce, hn, ht, rfl⟩

namespace Planner.IsOf

/-! ## Indexes and routes -/

variable {p : Planner} {net : Network} (h : p.IsOf net)

include h in
theorem holds_of_getElem? {i : Nat} {r : Route}
    (hr : p.tables.numbering.routes[i]? = some r) : net.Holds r :=
  (Network.mem_source_iff h.known).mp ((Numbering.mem_routes_of_build h.numbering).mp ⟨i, hr⟩)

include h in
theorem exists_index {r : Route} (hr : net.Holds r) :
    ∃ i : Nat, p.tables.numbering.routes[i]? = some r :=
  (Numbering.mem_routes_of_build h.numbering).mpr ((Network.mem_source_iff h.known).mpr hr)

include h in
/-- The index of the name of a route is its place. -/
theorem indexOf_eq_ok_iff {i : Nat} {r : Route} (hr : net.Holds r) :
    p.tables.numbering.indexOf r.id = .ok i ↔ p.tables.numbering.routes[i]? = some r := by
  rw [Numbering.indexOf_eq_ok_iff_of_nodup h.numbering (Network.nodup_source h.known)]
  constructor
  · rintro ⟨s, hs, hid⟩
    have hheld := h.holds_of_getElem? hs
    rw [Network.Holds, hid, hr] at hheld
    rw [hs, Option.some.inj hheld]
  · exact fun hplace => ⟨r, hplace, rfl⟩

include h in
theorem eq_of_getElem? {i j : Nat} {r : Route} (hi : p.tables.numbering.routes[i]? = some r)
    (hj : p.tables.numbering.routes[j]? = some r) : i = j := by
  have hheld := h.holds_of_getElem? hi
  rw [← h.indexOf_eq_ok_iff hheld] at hi hj
  rw [hi] at hj
  exact Except.ok.inj hj

include h in
theorem holds_of_mem {i : Interchange} (hi : i ∈ net.interchanges) {r : Route}
    (hr : r ∈ i.dropoffs ∨ r ∈ i.pickups) : net.Holds r := by
  obtain ⟨c, hc, rfl⟩ := Network.exists_call_of_mem hi hr
  exact h.settled c hc

variable {i j : Nat} {r s : Route} (hr : p.tables.numbering.routes[i]? = some r)
  (hs : p.tables.numbering.routes[j]? = some s)

include h hr hs in
theorem sharesDates_iff : p.tables.numbering.sharesDates i j = true ↔
    r = s ∨ r.sharesDateWith s = true := by
  rw [Numbering.sharesDates, hr, hs]
  dsimp only
  rw [Bool.or_eq_true, beq_iff_eq]
  refine or_congr_left ⟨?_, ?_⟩
  · rintro rfl
    rw [hr] at hs
    exact Option.some.inj hs
  · rintro rfl
    exact h.eq_of_getElem? hr hs

include h hr hs in
theorem meetAt_iff {x : Interchange} (hx : x ∈ net.interchanges) :
    p.tables.numbering.MeetAt x i j ↔
      r ∈ x.dropoffs ∧ s ∈ x.pickups ∧ Interchange.joins r s = true := by
  constructor
  · rintro ⟨dropoff, hdropoff, pickup, hpickup, hfirst, hsecond, hjoins⟩
    rw [h.indexOf_eq_ok_iff (h.holds_of_mem hx (.inl hdropoff)), hr] at hfirst
    rw [h.indexOf_eq_ok_iff (h.holds_of_mem hx (.inr hpickup)), hs] at hsecond
    cases hfirst
    cases hsecond
    exact ⟨hdropoff, hpickup, hjoins⟩
  · rintro ⟨hdropoff, hpickup, hjoins⟩
    have hfirst := (h.indexOf_eq_ok_iff (h.holds_of_mem hx (.inl hdropoff))).mpr hr
    have hsecond := (h.indexOf_eq_ok_iff (h.holds_of_mem hx (.inr hpickup))).mpr hs
    exact ⟨r, hdropoff, s, hpickup, hfirst, hsecond, hjoins⟩

include h hr hs in
theorem linked_iff : p.tables.numbering.Linked net.interchanges i j ↔
    ∃ x ∈ net.interchanges, r ∈ x.dropoffs ∧ s ∈ x.pickups ∧ Interchange.joins r s = true := by
  rw [Numbering.Linked, h.sharesDates_iff hr hs]
  constructor
  · rintro ⟨⟨x, hx, hmeet⟩, -⟩
    exact ⟨x, hx, (h.meetAt_iff hr hs hx).mp hmeet⟩
  · rintro ⟨x, hx, hdropoff, hpickup, hjoins⟩
    refine ⟨⟨x, hx, (h.meetAt_iff hr hs hx).mpr ⟨hdropoff, hpickup, hjoins⟩⟩, .inr ?_⟩
    rw [Route.sharesDateWith_comm]
    exact (Interchange.joins_iff.mp hjoins).2

include hr hs in
/-- The gate lets two routes through that both run on the date in a permitted mode. -/
theorem get_gate_iff (scope : Scope) : (p.enquiry scope).gate.get i j = true ↔
    r.isOffered scope.date scope.modes = true ∧ s.isOffered scope.date scope.modes = true := by
  have hr' : p.tables.degrees.numbering.routes[i]? = some r := hr
  have hs' : p.tables.degrees.numbering.routes[j]? = some s := hs
  show (p.tables.degrees.gate scope.date scope.modes).get i j = true ↔ _
  rw [Degrees.get_gate_iff, hr', hs']
  simp

include h hr hs in
/-- The stations of a direct change are the interchanges in the modes that provide for it. -/
theorem mem_servedBy_iff {x : Interchange} {modes : ModeSet} :
    x ∈ p.tables.stations.servedBy ⟨i, j⟩ modes ↔
      x ∈ net.interchanges ∧ r ∈ x.dropoffs ∧ s ∈ x.pickups ∧ Interchange.joins r s = true ∧
        x.servesAny modes = true := by
  have hstations := ChangeStations.stationsOf_build h.built.stations
  rw [ChangeStations.servedBy, List.mem_filter]
  constructor
  · rintro ⟨hx, hmodes⟩
    obtain ⟨hmem, hmeet⟩ := hstations.meetAt_of_mem hx
    obtain ⟨hdropoff, hpickup, hjoins⟩ := (h.meetAt_iff hr hs hmem).mp hmeet
    exact ⟨hmem, hdropoff, hpickup, hjoins, hmodes⟩
  · rintro ⟨hmem, hdropoff, hpickup, hjoins, hmodes⟩
    have hmeet := (h.meetAt_iff hr hs hmem).mpr ⟨hdropoff, hpickup, hjoins⟩
    obtain ⟨known, hknown, hstation⟩ := hstations.exists_of_meetAt hmem hmeet
    rw [Network.eq_of_station_eq (hstations.meetAt_of_mem hknown).1 hmem hstation] at hknown
    exact ⟨hknown, hmodes⟩

theorem servesAny_of_isOffered {x : Interchange} {scope : Scope} (hdropoff : r ∈ x.dropoffs)
    (hoffered : r.isOffered scope.date scope.modes = true) :
    x.servesAny scope.modes = true := by
  rw [Route.isOffered, Bool.and_eq_true] at hoffered
  refine ModeSet.intersects_iff.mpr ⟨r.mode, ?_, hoffered.2⟩
  exact Interchange.serves_iff.mpr ⟨r, .inl hdropoff, rfl⟩

include h hr hs in
/-- A step of an expansion, from a route that runs: the two routes meet at the interchange, and the
second runs and shares a date with the route one started from. -/
theorem linkBy_iff {start : Nat} {a : Route} (ha : p.tables.numbering.routes[start]? = some a)
    {scope : Scope} (hstart : a.isOffered scope.date scope.modes = true)
    (hoffered : r.isOffered scope.date scope.modes = true) {x : Interchange} :
    p.tables.LinkBy net.interchanges (p.enquiry scope).gate scope.modes start i x j ↔
      x ∈ net.interchanges ∧ r ∈ x.dropoffs ∧ s ∈ x.pickups ∧ Interchange.joins r s = true ∧
        s.isOffered scope.date scope.modes = true ∧
          p.tables.numbering.sharesDates start j = true := by
  rw [Connections.LinkBy, h.mem_servedBy_iff hr hs, get_gate_iff ha hs]
  constructor
  · rintro ⟨-, hshares, ⟨-, hoffered'⟩, hx, hdropoff, hpickup, hjoins, -⟩
    exact ⟨hx, hdropoff, hpickup, hjoins, hoffered', hshares⟩
  · rintro ⟨hx, hdropoff, hpickup, hjoins, hoffered', hshares⟩
    exact ⟨(h.linked_iff hr hs).mpr ⟨x, hx, hdropoff, hpickup, hjoins⟩, hshares,
      ⟨hstart, hoffered'⟩, hx, hdropoff, hpickup, hjoins,
      servesAny_of_isOffered hdropoff hoffered⟩

include h in
/-- Every direct change from a route that runs has a station in the modes. -/
theorem served (scope : Scope) :
    p.tables.Served net.interchanges (p.enquiry scope).gate scope.modes := by
  intro start first second hgate hlinked
  obtain ⟨-, r, hr, hoffered⟩ := Degrees.get_gate_iff.mp hgate
  have hs := Array.getElem?_eq_getElem (Numbering.lt_size_of_meet h.built.kept hlinked.1).2
  obtain ⟨x, hx, hdropoff, hpickup, hjoins⟩ := (h.linked_iff hr hs).mp hlinked
  refine List.ne_nil_of_mem ((h.mem_servedBy_iff hr hs).mpr ⟨hx, hdropoff, hpickup, hjoins, ?_⟩)
  exact servesAny_of_isOffered hdropoff hoffered

end Planner.IsOf
end TransitChanges
