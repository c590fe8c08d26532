import TransitChanges.Vias

/-!
# The width of stored numbers

A record is stored with a route index in sixteen bits and a degree in eight.  Of a number that is
too large for its field the low bits are kept (`octet`, `short`), so what is stored is the narrowed
record.  Narrowing changes nothing where all numbers have the width of their fields, which is the
case as long as there are no more routes than sixteen bits tell apart.

* `IndexRecord.narrowed_eq`, `DegreeRecord.narrowed_eq`, `ViaRecord.narrowed_eq`: records that are
  stored as they are.
-/

namespace TransitChanges

/-- The low eight bits of a number. -/
def octet (n : Nat) : Nat :=
  (UInt8.ofNat n).toNat

/-- The low sixteen bits of a number. -/
def short (n : Nat) : Nat :=
  (UInt16.ofNat n).toNat

variable {n : Nat}

theorem octet_eq (h : n < UInt8.size) : octet n = n :=
  UInt8.toNat_ofNat_of_lt' h

theorem short_eq (h : n < UInt16.size) : short n = n :=
  UInt16.toNat_ofNat_of_lt' h

theorem map_short_eq {l : List Nat} (h : ∀ n ∈ l, n < UInt16.size) : l.map short = l :=
  (List.map_congr_left fun n hn => short_eq (h n hn)).trans l.map_id

/-- The record of an index in the widths of its fields. -/
def IndexRecord.narrowed (r : IndexRecord) : IndexRecord :=
  { r with index := short r.index }

/-- The record of a row in the widths of its fields. -/
def DegreeRecord.narrowed (r : DegreeRecord) : DegreeRecord :=
  ⟨octet r.level, short r.route, r.reached.map short⟩

/-- The record of intermediate routes in the widths of its fields. -/
def ViaRecord.narrowed (r : ViaRecord) : ViaRecord :=
  ⟨octet r.degree, short r.first, short r.second, r.vias.map short⟩

theorem IndexRecord.narrowed_eq {r : IndexRecord} (h : r.index < UInt16.size) :
    r.narrowed = r := by
  rw [narrowed, short_eq h]

theorem DegreeRecord.narrowed_eq {r : DegreeRecord} (hlevel : r.level < UInt8.size)
    (hroute : r.route < UInt16.size) (hreached : ∀ i ∈ r.reached, i < UInt16.size) :
    r.narrowed = r := by
  rw [narrowed, octet_eq hlevel, short_eq hroute, map_short_eq hreached]

theorem ViaRecord.narrowed_eq {r : ViaRecord} (hdegree : r.degree < UInt8.size)
    (hfirst : r.first < UInt16.size) (hsecond : r.second < UInt16.size)
    (hvias : ∀ via ∈ r.vias, via < UInt16.size) : r.narrowed = r := by
  rw [narrowed, octet_eq hdegree, short_eq hfirst, short_eq hsecond, map_short_eq hvias]

end TransitChanges
