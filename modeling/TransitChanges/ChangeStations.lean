import TransitChanges.Degrees

/-!
# Where one can change

For every pair of routes with a direct change, the interchanges where it can be made, in the order
in which the timetable lists them.  The rule is that of the direct changes of `Degrees`; a station
that the timetable lists twice is kept once for a pair, as it was first.

* `station_mem_addOnce`: a station that is added is there.
-/

namespace TransitChanges

/-- The interchanges of each pair of routes with a direct change. -/
structure ChangeStations where
  stations : Std.TreeMap RoutePair (List Interchange)

namespace ChangeStations

/-- A list of interchanges with one more, unless its station is there. -/
def addOnce (interchange : Interchange) (stations : List Interchange) : List Interchange :=
  if stations.any fun known => known.station = interchange.station then stations
  else stations ++ [interchange]

/-- A station that is added is there. -/
theorem station_mem_addOnce (interchange : Interchange) (stations : List Interchange) :
    ∃ known ∈ addOnce interchange stations, known.station = interchange.station := by
  unfold addOnce
  split
  · next h => simpa using h
  · exact ⟨interchange, by simp, rfl⟩

/-- The map with one more interchange for a pair. -/
def add (map : Std.TreeMap RoutePair (List Interchange)) (interchange : Interchange)
    (pair : RoutePair) : Std.TreeMap RoutePair (List Interchange) :=
  map.insert pair (addOnce interchange (map.getD pair []))

/-- The map with the direct changes at more interchanges. -/
def addAll (n : Numbering) (map : Std.TreeMap RoutePair (List Interchange)) :
    List Interchange → Except Fault (Std.TreeMap RoutePair (List Interchange))
  | [] => .ok map
  | interchange :: interchanges => do
    let changes ← n.changesAt interchange
    addAll n (changes.foldl (fun map (i, j) => add map interchange ⟨i, j⟩) map) interchanges

/-- The interchanges of the pairs of numbered routes. -/
def build (n : Numbering) (interchanges : List Interchange) : Except Fault ChangeStations := do
  let map ← addAll n ∅ interchanges
  return ⟨map⟩

variable (s : ChangeStations)

/-- Whether a pair has a direct change. -/
def has (pair : RoutePair) : Bool :=
  s.stations.contains pair

/-- The interchanges of a pair that are served in one of the modes. -/
def servedBy (pair : RoutePair) (modes : ModeSet) : List Interchange :=
  (s.stations.getD pair []).filter fun interchange => interchange.servesAny modes

/-- The number of pairs with a direct change. -/
def size : Nat :=
  s.stations.size

end ChangeStations
end TransitChanges
