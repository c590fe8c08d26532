import TransitChanges.Proofs.Restoring
import TransitChanges.Proofs.TablesInRange
import TransitChanges.SampleCity

/-!
# Tables restored from anything that is accepted

Records are accepted if the numbers in them are in range, and nothing else about them is checked.
Restored tables therefore tell of numbered routes only, and may contradict each other in every other
way.  That is all that queries need to stay in range themselves.

* `Connections.inRange_of_ofRecords`: what the checks on records give.
* `Planner.bounded_of_ofRecords`: queries over restored tables.
-/

namespace TransitChanges

open Bits

/-! ## What the checks give -/

namespace Degrees

variable {n : Numbering} {t : Degrees} {size : Nat} {levels result : List BitMatrix}
  {records : List DegreeRecord}

theorem squares_of_store {r : DegreeRecord} (h : ∀ m ∈ levels, m.size = size ∧ m.IsSquare) :
    ∀ m ∈ store size levels r, m.size = size ∧ m.IsSquare := by
  intro m hm
  obtain ⟨level, hlevel⟩ := List.mem_iff_getElem?.mp hm
  rw [store, List.getElem?_modify] at hlevel
  obtain ⟨kept, hkept, rfl⟩ := Option.map_eq_some_iff.mp hlevel
  obtain ⟨hsize, hsquare⟩ := h kept (List.mem_of_getElem? hkept)
  split
  · refine ⟨hsize, fun route hroute => ?_⟩
    rw [BitMatrix.row_modifyRow]
    split
    · rw [Bitmap.size_ofList, BitMatrix.size_modifyRow, hsize]
    · exact hsquare route hroute
  · exact ⟨hsize, hsquare⟩

/-- Rows that fit leave the matrices square. -/
theorem squares_of_storeAll (h : ∀ m ∈ levels, m.size = size ∧ m.IsSquare)
    (hresult : storeAll size levels records = .ok result) :
    ∀ m ∈ result, m.size = size ∧ m.IsSquare := by
  induction records generalizing levels with
  | nil =>
    cases hresult
    exact h
  | cons r records ih =>
    rw [storeAll] at hresult
    split at hresult
    · exact ih (squares_of_store h) hresult
    · cases hresult

/-- **Restored degrees are as large as their numbering.** -/
theorem squares_of_ofRecords (h : ofRecords n records = .ok t) :
    t.numbering = n ∧ t.Squares := by
  unfold ofRecords at h
  split at h
  · next levels hlevels =>
    cases h
    refine ⟨rfl, squares_of_storeAll (fun m hm => ?_) hlevels⟩
    rw [List.eq_of_mem_replicate hm]
    exact ⟨rfl, BitMatrix.isSquare_empty _⟩
  · cases h

end Degrees

namespace Vias

variable {size : Nat} {records : List ViaRecord} {v : Vias}

/-- Intermediate routes that fit are numbered. -/
theorem lt_of_ofRecords (h : ofRecords size records = .ok v) {c : Connection} {vias : Bitmap}
    (hvias : v.routes[c]? = some vias) {via : Nat} (hvia : via ∈ vias.toList) : via < size := by
  obtain ⟨hsize, hrange⟩ := inRange_of_ofRecords h
  have hfits := (hrange (Std.TreeMap.mem_toList_iff_getElem?_eq_some.mpr hvias)).2
  obtain ⟨-, -, -, -, hlt⟩ := fits_iff.mp hfits
  exact hsize ▸ hlt via hvia

end Vias

namespace Connections

/-- The tables that records tell, with the stations of some interchanges. -/
def ofRecords (source : RouteSource) (interchanges : List Interchange)
    (indexes : List IndexRecord) (rows : List DegreeRecord) (vias : List ViaRecord) :
    Except Fault Connections := do
  let n ← Numbering.ofRecords source indexes
  let degrees ← Degrees.ofRecords n rows
  let stations ← ChangeStations.build n interchanges
  let vias ← Vias.ofRecords n.size vias
  return ⟨degrees, stations, vias⟩

variable {source : RouteSource} {interchanges : List Interchange} {indexes : List IndexRecord}
  {rows : List DegreeRecord} {vias : List ViaRecord} {t : Connections}

/-- **Restored tables are in range.** -/
theorem inRange_of_ofRecords (h : ofRecords source interchanges indexes rows vias = .ok t) :
    t.InRange := by
  simp only [ofRecords, Fault.bind_eq_ok_iff] at h
  obtain ⟨n, -, degrees, hdegrees, stations, -, restored, hvias, h⟩ := h
  cases h
  obtain ⟨rfl, hsquares⟩ := Degrees.squares_of_ofRecords hdegrees
  exact ⟨fun hat => hsquares.lt_of_isAt hat, Vias.lt_of_ofRecords hvias⟩

end Connections

namespace Planner

/-- **However inconsistent restored tables are, queries stay in range.**  Every query is refused for
a name without an index, or for a station or an intermediate route that is missing, or else it is
answered: two routes are their recorded degree apart or unreachable, and two places at most two
changes more than the largest degree, or unreachable. -/
theorem bounded_of_ofRecords {source : RouteSource} {interchanges : List Interchange}
    {indexes : List IndexRecord} {rows : List DegreeRecord} {vias : List ViaRecord}
    {t : Connections} (h : Connections.ofRecords source interchanges indexes rows vias = .ok t)
    (service : Service) : (Planner.mk t service).Bounded :=
  bounded_of_inRange (Connections.inRange_of_ofRecords h)

end Planner

/-! ## Records that contradict each other -/

namespace Tangled

open SampleCity

/-- The routes of the sample city in some order. -/
def indexes : List IndexRecord :=
  [⟨2, named "BLUE"⟩, ⟨0, named "GREEN"⟩, ⟨1, named "PINK"⟩, ⟨3, named "X50"⟩]

/-- A route that is connected to itself, and to another one at two degrees. -/
def rows : List DegreeRecord :=
  [⟨0, 0, [0, 2]⟩, ⟨1, 0, [1, 2]⟩, ⟨4, 1, [3]⟩]

/-- Ways back to where one started, and ways without a connection. -/
def vias : List ViaRecord :=
  [⟨2, 0, 1, [0, 2]⟩, ⟨3, 3, 3, [3]⟩]

/-- The records are accepted, and queries over their tables stay in range. -/
theorem bounded_of_tangled : ∃ t,
    Connections.ofRecords network.source network.interchanges indexes rows vias = .ok t ∧
    t.degrees.isAt 1 ⟨0, 0⟩ = true ∧ t.degrees.allDegrees ⟨0, 2⟩ = .ok [1, 2] ∧
    (Planner.mk t network.service).Bounded := by
  have htold : (Connections.ofRecords network.source network.interchanges indexes rows vias).map
      (fun t => (t.degrees.isAt 1 ⟨0, 0⟩, t.degrees.allDegrees ⟨0, 2⟩)) =
        .ok (true, .ok [1, 2]) := rfl
  cases ht : Connections.ofRecords network.source network.interchanges indexes rows vias with
  | error fault =>
    rw [ht] at htold
    cases htold
  | ok t =>
    rw [ht] at htold
    obtain ⟨hdiagonal, hdegrees⟩ := Prod.mk.inj (Except.ok.inj htold)
    exact ⟨t, rfl, hdiagonal, hdegrees, Planner.bounded_of_ofRecords ht network.service⟩

end Tangled
end TransitChanges
