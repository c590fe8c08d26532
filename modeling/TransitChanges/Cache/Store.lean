import TransitChanges.Cache.Directory
import TransitChanges.Record

/-!
# Records in files

Lists of records are kept in the cache directory, each list in one file under a name, with the time
at which it was written.  Loading is all or nothing: a file that cannot be read, or does not decode
as a whole, gives no records.

One file, `versionFile`, holds the version of the data that the other files were made from.  When
the data has another version all files are removed, and the new version is recorded in any case.

* `has_run`: asking for a file changes nothing.
-/

namespace TransitChanges.Cache

/-- An operation on the cache directory, which may have changed even where the operation fails. -/
abbrev CacheM := ExceptT Fault (StateM Directory)

/-- The file with the version of the data. -/
def versionFile : String := "data_version.json"

/-- The document that a list of records is stored as. -/
def document {α : Type} [Stored α] (writtenAt : Nat) (records : List α) : Json :=
  .ofMembers
    [("cached_at_secs", .natural writtenAt), ("records", .list (records.map Stored.toJson))]

/-- The records of a document. -/
def recordsOf? {α : Type} [Stored α] (j : Json) : Option (List α) := do
  match ← Json.fields? ["cached_at_secs", "records"] j with
  | [writtenAt, records] => do
    let _ ← Json.below? UInt64.size writtenAt
    Json.listOf? Stored.ofJson? records
  | _ => none

/-- Whether there is a file of a name. -/
def has (file : String) : StateM Directory Bool :=
  return (← get).isFile file

/-- Asking for a file changes nothing. -/
@[simp] theorem has_run (file : String) (d : Directory) : has file d = (d.isFile file, d) := rfl

/-- Change the directory, or fail for a file. -/
def change (fault : CacheFault) (f : Directory → Option Directory) : CacheM Unit := do
  match f (← get) with
  | some d => set d
  | none => throw (.cache fault)

/-- Store records in a file, in place of what it held.  The directory is made if there is none,
unless its name is empty. -/
def save {α : Type} [Stored α] (now : Nat) (file : String) (records : List α) : CacheM Unit := do
  if (← get).IsNamed then
    modify Directory.make
    if !(← get).isTaken then throw (.cache (.inaccessible file))
  change (.inaccessible file) fun d => d.write? file (document now records).render

/-- The records of a file. -/
def load {α : Type} [Stored α] (file : String) : CacheM (List α) := do
  match (← get).read? file with
  | none => throw (.cache (.inaccessible file))
  | some content =>
    match (Json.read? content.toList).bind recordsOf? with
    | some records => return records
    | none => throw (.cache (.undecodable file))

/-- The records of a file, if it exists and can be loaded. -/
def load? {α : Type} [Stored α] (file : String) : StateM Directory (Option (List α)) := do
  if ← has file then
    match ← (load file).run with
    | .ok records => return some records
    | .error _ => return none
  else return none

/-- Remove a file; one that is not there counts as removed. -/
def remove (file : String) : CacheM Unit :=
  change (.inaccessible file) fun d => d.remove? file

/-- Remove all files of the directory. -/
def clear : CacheM Unit :=
  change .directoryInaccessible Directory.clear?

/-- Clear the cache unless the version it records is the given one, and then record that.  Tells
whether the cache was cleared. -/
def refresh (now : Nat) (version : String) : CacheM Bool := do
  let recorded : Option (List String) ← load? versionFile
  if (recorded.bind List.head?) = some version then return false
  else do
    clear
    save now versionFile [version]
    return true

end TransitChanges.Cache
