/-!
# Modes of transport

The kinds of vehicle, in the order in which sets of them are listed, and the sets a query may
permit.  A set of modes is its membership test: there are five modes, so a set is listed by asking
for each.

* `mem_toList`: a listed set has the modes it contains.
* `toList_sublist`: sets are listed in the order of the modes, each mode once.
-/

namespace TransitChanges

/-- The kind of vehicle that serves a route. -/
inductive Mode where
  | tram | bus | train | subway | ferry
  deriving DecidableEq, Repr

namespace Mode

/-- Every mode, in order. -/
def all : List Mode :=
  [tram, bus, train, subway, ferry]

/-- The word for a mode. -/
def name : Mode → String
  | tram => "tram"
  | bus => "bus"
  | train => "train"
  | subway => "subway"
  | ferry => "ferry"

/-- The mode that a word names. -/
def ofName? (s : String) : Option Mode :=
  all.find? fun mode => mode.name == s

/-- The place of a mode in the order. -/
def index : Mode → Nat
  | tram => 0
  | bus => 1
  | train => 2
  | subway => 3
  | ferry => 4

theorem mem_all (mode : Mode) : mode ∈ all := by
  cases mode <;> decide

theorem ofName?_name (mode : Mode) : ofName? mode.name = some mode := by
  cases mode <;> decide

end Mode

/-- A set of modes. -/
structure ModeSet where
  contains : Mode → Bool

namespace ModeSet

/-- The set of every mode. -/
def all : ModeSet := ⟨fun _ => true⟩

/-- The set of the modes of a list. -/
def ofList (modes : List Mode) : ModeSet :=
  ⟨fun mode => modes.contains mode⟩

/-- The modes of a set, in order. -/
def toList (s : ModeSet) : List Mode :=
  Mode.all.filter s.contains

/-- Whether two sets share a mode. -/
def intersects (s t : ModeSet) : Bool :=
  s.toList.any t.contains

/-- The modes of a set, joined by commas. -/
def text (s : ModeSet) : String :=
  String.intercalate "," (s.toList.map Mode.name)

/-- A listed set has the modes it contains. -/
theorem mem_toList {s : ModeSet} {mode : Mode} : mode ∈ s.toList ↔ s.contains mode = true := by
  rw [toList, List.mem_filter]
  exact and_iff_right mode.mem_all

/-- Sets are listed in the order of the modes, each mode once. -/
theorem toList_sublist (s : ModeSet) : s.toList.Sublist Mode.all :=
  List.filter_sublist

theorem intersects_iff {s t : ModeSet} :
    s.intersects t = true ↔ ∃ mode, s.contains mode = true ∧ t.contains mode = true := by
  simp only [intersects, List.any_eq_true, mem_toList]

end ModeSet
end TransitChanges
