import Std.Data.TreeMap

/-!
# Names of routes and stations

Routes and stations are known by texts that mean nothing by themselves.  The only rule is that a
name is not empty, and it is kept in the type.  Names are ordered as texts are, by code point, which
is also the order of their UTF-8 bytes.

The two kinds of name are two types, so that a station cannot be asked for where a route is meant.

* `Name.compare_eq_iff`: the order tells different names apart.
-/

namespace TransitChanges

/-- What a name may stand for. -/
inductive NameKind where
  | route
  | station
  deriving DecidableEq

/-- The word that a kind of name is shown by. -/
def NameKind.label : NameKind → String
  | .route => "RouteId"
  | .station => "StationId"

/-- A text that names a route or a station. -/
structure Name (kind : NameKind) where
  text : String
  text_ne : text ≠ ""
  deriving DecidableEq

/-- The name of a route. -/
abbrev RouteId := Name .route

/-- The name of a station. -/
abbrev StationId := Name .station

namespace Name

variable {kind : NameKind}

theorem ext {a b : Name kind} (h : a.text = b.text) : a = b := by
  cases a; cases b; cases h; rfl

/-- The name that a text is, unless it is empty. -/
def ofText? (s : String) : Option (Name kind) :=
  if h : s = "" then none else some ⟨s, h⟩

instance : Ord (Name kind) := ⟨compareOn text⟩

instance : Std.TransOrd (Name kind) :=
  inferInstanceAs (Std.TransCmp (compareOn fun name : Name kind => name.text))

instance : Std.LawfulEqOrd (Name kind) where
  eq_of_compare h := ext (Std.LawfulEqOrd.eq_of_compare h)

/-- The order tells different names apart. -/
theorem compare_eq_iff {a b : Name kind} : compare a b = .eq ↔ a = b :=
  Std.LawfulEqOrd.compare_eq_iff_eq

/-- The order as a test, for sorting. -/
def le (a b : Name kind) : Bool :=
  (compare a b).isLE

theorem ofText?_eq_some_iff {s : String} {a : Name kind} : ofText? s = some a ↔ a.text = s := by
  unfold ofText?
  constructor
  · intro h
    split at h
    · simp at h
    · rw [← Option.some.inj h]
  · intro h
    subst h
    rw [dif_neg a.text_ne]

end Name

/-- How a name is shown with its kind. -/
def Name.inspect {kind : NameKind} (a : Name kind) : String :=
  kind.label ++ "(" ++ a.text ++ ")"

end TransitChanges
