import TransitChanges.Interchange
import TransitChanges.Json.Reader
import TransitChanges.Vias

/-!
# What is stored

Names, modes, dates, days and the records of the tables have one JSON form each (`Stored.toJson`),
and they are read back leniently in the way in which records are (`Stored.ofJson?`).

A record is an object.  Its fields may stand in any order and among others, which are ignored; a
field that is missing or stands twice makes the record unreadable.  A list of exactly the fields'
values in their order is read as a record as well.  Numbers have to be natural numbers of the width
of their field.

* `fields?_list`: a list of the right length is read as the fields' values.
-/

namespace TransitChanges

open Calendar

/-- Values with a JSON form. -/
class Stored (α : Type) where
  toJson : α → Json
  ofJson? : Json → Option α

namespace Json

/-- A natural number below a bound. -/
def below? (bound : Nat) : Json → Option Nat
  | natural n => if n < bound then some n else none
  | _ => none

/-- A number of eight bits. -/
def byte? : Json → Option Nat := below? 256

/-- A number of sixteen bits. -/
def short? : Json → Option Nat := below? 65536

/-- A text that is a sequence of characters. -/
def string? : Json → Option String
  | text (some s) => some (String.ofList s)
  | _ => none

/-- The items of a list. -/
def items : Json → Option (List Json)
  | list items => some items
  | _ => none

/-- The items of a list, each read. -/
def listOf? {α : Type} (read : Json → Option α) : Json → Option (List α)
  | list items => items.mapM read
  | _ => none

/-- The values of a field among members. -/
def valuesOf (field : String) (members : List (Option (List Char) × Json)) : List Json :=
  let name := some field.toList
  (members.filter fun member => member.1 == name).map Prod.snd

/-- The value of a field that stands once among members. -/
def only? (members : List (Option (List Char) × Json)) (field : String) : Option Json :=
  match valuesOf field members with
  | [value] => some value
  | _ => none

/-- The values of the fields of a record, in the order of the fields. -/
def fields? (fields : List String) : Json → Option (List Json)
  | object members =>
    if members.all fun member => member.1.isSome then fields.mapM (only? members) else none
  | list items => if items.length = fields.length then some items else none
  | _ => none

/-- A list of the right length is read as the fields' values. -/
theorem fields?_list {fields : List String} {items : List Json}
    (h : items.length = fields.length) : fields? fields (list items) = some items := by
  rw [fields?, if_pos h]

end Json

open Json

instance : Stored String where
  toJson := ofString
  ofJson? := string?

instance {kind : NameKind} : Stored (Name kind) where
  toJson name := ofString name.text
  ofJson? j := (string? j).bind Name.ofText?

/-- A mode is its word, or an object with that word for its only member and `null` for its value. -/
instance : Stored Mode where
  toJson mode := ofString mode.name
  ofJson?
    | .text (some s) => Mode.ofName? (String.ofList s)
    | .object [(some s, .null)] => Mode.ofName? (String.ofList s)
    | _ => none

instance : Stored ModeSet where
  toJson modes := .list (modes.toList.map Stored.toJson)
  ofJson? j := (listOf? Stored.ofJson? j).map ModeSet.ofList

instance : Stored Date where
  toJson date := ofString date.text
  ofJson? j := (string? j).bind Date.read?

/-- A range of dates is a list of its two ends, which have to be in order. -/
instance : Stored DateRange where
  toJson dates := .list [Stored.toJson dates.start, Stored.toJson dates.finish]
  ofJson? j :=
    match items j with
    | some [start, finish] => do
      let start ← Stored.ofJson? start
      let finish ← Stored.ofJson? finish
      (DateRange.between start finish).toOption
    | _ => none

instance : Stored DaySet where
  toJson days := .natural days.mask.toNat
  ofJson? j := (byte? j).bind fun mask => (DaySet.ofMask? mask).toOption

instance : Stored IndexRecord where
  toJson r := .ofMembers [("index", .natural r.index), ("route_id", Stored.toJson r.route)]
  ofJson? j := do
    match ← fields? ["index", "route_id"] j with
    | [index, route] => return ⟨← short? index, ← Stored.ofJson? route⟩
    | _ => none

instance : Stored DegreeRecord where
  toJson r := .ofMembers
    [("degree", .natural r.level), ("route_index", .natural r.route),
      ("set_bits", .list (r.reached.map .natural))]
  ofJson? j := do
    match ← fields? ["degree", "route_index", "set_bits"] j with
    | [level, route, reached] =>
      return ⟨← byte? level, ← short? route, ← listOf? short? reached⟩
    | _ => none

instance : Stored ViaRecord where
  toJson r := .ofMembers
    [("depth", .natural r.degree), ("route_a", .natural r.first), ("route_b", .natural r.second),
      ("links", .list (r.vias.map .natural))]
  ofJson? j := do
    match ← fields? ["depth", "route_a", "route_b", "links"] j with
    | [degree, first, second, vias] =>
      return ⟨← byte? degree, ← short? first, ← short? second, ← listOf? short? vias⟩
    | _ => none

/-- The value that the text of a document is read as. -/
def Stored.read? {α : Type} [Stored α] (s : String) : Option α :=
  (Json.read? s.toList).bind Stored.ofJson?

/-- The text a value is stored as. -/
def Stored.text {α : Type} [Stored α] (a : α) : String :=
  (Stored.toJson a).render

end TransitChanges
