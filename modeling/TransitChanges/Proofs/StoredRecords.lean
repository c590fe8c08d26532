import TransitChanges.Cache.Store
import TransitChanges.Proofs.JsonText
import TransitChanges.Proofs.Restoring

/-!
# Stored records are read back

A value is read back from its JSON form if its numbers have the width of their fields
(`Stored.ReadsBack`).  The records of built tables are of that kind, since there are no more routes
than sixteen bits can count; so a document that holds them gives them back.

* `recordsOf?_document`: the document of some records.
* `Numbering.readsBack_of_mem_records`, `Degrees.readsBack_of_mem_records`,
  `Vias.readsBack_of_mem_records`: the records of built tables.
-/

namespace TransitChanges

open Json Cache Bits

namespace Stored

variable {α : Type} [Stored α]

/-- A value can be read back from its JSON form, and the form from its text. -/
def ReadsBack (a : α) : Prop :=
  (toJson a).isKept = true ∧ ofJson? (toJson a) = some a

theorem readsBack_string (s : String) : ReadsBack s := by
  refine ⟨rfl, ?_⟩
  change some (String.ofList s.toList) = some s
  rw [String.ofList_toList]

theorem readsBack_name {kind : NameKind} (name : Name kind) : ReadsBack name := by
  refine ⟨rfl, ?_⟩
  change (some (String.ofList name.text.toList)).bind Name.ofText? = some name
  rw [String.ofList_toList, Option.bind_some, Name.ofText?_eq_some_iff]

/-! ## Lists -/

theorem areKept_map {β : Type} {f : β → Json} {l : List β} (h : ∀ b ∈ l, (f b).isKept = true) :
    areKept (l.map f) = true := by
  induction l with
  | nil => rfl
  | cons b l ih =>
    rw [List.map_cons, areKept, h b List.mem_cons_self,
      ih fun c hc => h c (List.mem_cons_of_mem b hc)]
    rfl

theorem listOf?_map {β : Type} {f : β → Json} {read : Json → Option β} {l : List β}
    (h : ∀ b ∈ l, read (f b) = some b) : listOf? read (.list (l.map f)) = some l := by
  rw [listOf?]
  induction l with
  | nil => rfl
  | cons b l ih =>
    rw [List.map_cons, List.mapM_cons, h b List.mem_cons_self,
      ih fun c hc => h c (List.mem_cons_of_mem b hc)]
    rfl

theorem below?_natural {bound n : Nat} (h : n < bound) : below? bound (.natural n) = some n :=
  if_pos h

theorem shorts?_natural {l : List Nat} (h : ∀ n ∈ l, n < 65536) :
    listOf? short? (.list (l.map .natural)) = some l :=
  listOf?_map fun n hn => below?_natural (h n hn)

/-! ## Records -/

theorem readsBack_indexRecord {r : IndexRecord} (h : r.index < 65536) : ReadsBack r := by
  refine ⟨rfl, ?_⟩
  change (do
    let index ← short? (.natural r.index)
    let route ← ofJson? (toJson r.route)
    some (IndexRecord.mk index route)) = some r
  rw [short?, below?_natural h, (readsBack_name r.route).2]
  rfl

theorem readsBack_degreeRecord {r : DegreeRecord} (hlevel : r.level < 256)
    (hroute : r.route < 65536) (hreached : ∀ via ∈ r.reached, via < 65536) : ReadsBack r := by
  constructor
  · change (true && true && (true && true && (true && areKept (r.reached.map .natural) && true))) =
      true
    rw [areKept_map fun _ _ => rfl]
    rfl
  · change (do
      let level ← byte? (.natural r.level)
      let route ← short? (.natural r.route)
      let reached ← listOf? short? (.list (r.reached.map .natural))
      some (DegreeRecord.mk level route reached)) = some r
    rw [shorts?_natural hreached, byte?, short?, below?_natural hlevel, below?_natural hroute]
    rfl

theorem readsBack_viaRecord {r : ViaRecord} (hdegree : r.degree < 256) (hfirst : r.first < 65536)
    (hsecond : r.second < 65536) (hvias : ∀ via ∈ r.vias, via < 65536) : ReadsBack r := by
  constructor
  · change (true && true && (true && true && (true && true &&
      (true && areKept (r.vias.map .natural) && true)))) = true
    rw [areKept_map fun _ _ => rfl]
    rfl
  · change (do
      let degree ← byte? (.natural r.degree)
      let first ← short? (.natural r.first)
      let second ← short? (.natural r.second)
      let vias ← listOf? short? (.list (r.vias.map .natural))
      some (ViaRecord.mk degree first second vias)) = some r
    rw [shorts?_natural hvias, byte?, short?, below?_natural hdegree, below?_natural hfirst,
      below?_natural hsecond]
    rfl

/-! ## Documents -/

/-- What a document is read as. -/
def recordsIn? (α : Type) [Stored α] (content : String) : Option (List α) :=
  (Json.read? content.toList).bind recordsOf?

/-- **The document of some records is read back.** -/
theorem recordsIn?_document {now : Nat} (hnow : now < UInt64.size) {records : List α}
    (h : ∀ r ∈ records, ReadsBack r) :
    recordsIn? α (document now records).render = some records := by
  have hkept : (document now records).isKept = true := by
    change (true && true && (true && areKept (records.map toJson) && true)) = true
    rw [areKept_map fun r hr => (h r hr).1]
    rfl
  rw [recordsIn?, toList_render, read?_write hkept, Option.bind_some]
  change (do
    let _ ← below? UInt64.size (.natural now)
    listOf? ofJson? (.list (records.map toJson))) = some records
  rw [below?_natural hnow, listOf?_map fun r hr => (h r hr).2]
  rfl

end Stored

/-! ## Records of built tables -/

open Stored

theorem Numbering.readsBack_of_mem_records {n : Numbering} (hsize : n.size ≤ maxRoutes)
    {r : IndexRecord} (hr : r ∈ n.records) : ReadsBack r := by
  obtain ⟨route, hroute, -⟩ := mem_records_iff.mp hr
  have hlt : r.index < n.size := (Array.getElem?_eq_some_iff.mp hroute).1
  rw [maxRoutes] at hsize
  exact readsBack_indexRecord (by omega)

theorem Degrees.readsBack_of_mem_records {t : Degrees} (h : t.Squares) (hsize : t.size ≤ maxRoutes)
    {r : DegreeRecord} (hr : r ∈ t.records) : ReadsBack r := by
  have hfits := fits_of_mem_records h hr
  rw [fits, Bool.and_eq_true, Bool.and_eq_true, decide_eq_true_eq, decide_eq_true_eq,
    List.all_eq_true] at hfits
  obtain ⟨⟨hlevel, hroute⟩, hreached⟩ := hfits
  rw [maxRoutes] at hsize
  rw [maxDegree] at hlevel
  refine readsBack_degreeRecord (by omega) (by omega) fun via hvia => ?_
  have hlt := of_decide_eq_true (hreached via hvia)
  omega

theorem Vias.readsBack_of_mem_records {t : Degrees} (h : t.Squares) (hsize : t.size ≤ maxRoutes)
    {shared : BitMatrix} {r : ViaRecord} (hr : r ∈ (build shared t).records) : ReadsBack r := by
  obtain ⟨-, hle, hfirst, hsecond, hvias⟩ := fits_iff.mp (fits_of_mem_records h hr)
  rw [maxRoutes] at hsize
  rw [maxDegree] at hle
  refine readsBack_viaRecord (by omega) (by omega) (by omega) fun via hvia => ?_
  have hlt := hvias via hvia
  omega

end TransitChanges
