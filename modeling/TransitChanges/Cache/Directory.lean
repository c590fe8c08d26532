import TransitChanges.Cache.FileTree

/-!
# The cache directory

The cache lives in one directory of a tree of files.  The directory has a name, which is a way from
the folder in which the program runs or from the root.  It need not exist yet, and a file may stand
in its place.  File names are ways through the tree that start in the directory: most are plain names
of files in it, but a name may also lead into its folders or out of it, and one that begins with a
slash starts at the root.

The name of the directory may be empty.  Then the files are those of the folder in which the program
runs; but the empty name leads nowhere, so as a directory that folder is not found, and clearing the
directory leaves its files where they are.

An operation that can fail tells so, and changes nothing when it does.  Folders are made as far as
that can be done.

* `wayOf_of_isPlain`: the way of a plain name.
* `site_of_not_isNamed`, `find_of_not_isNamed`: a directory without a name.
-/

namespace TransitChanges.Cache

/-- Where a directory is said to be. -/
structure Place where
  /-- The folder in which the program runs. -/
  working : Path
  /-- The name of the directory, a way from there or from the root. -/
  name : String

namespace Place

/-- The parts of the name. -/
def parts (place : Place) : List String :=
  FileTree.partsOf place.name

/-- The directory has a name that is not empty. -/
def IsNamed (place : Place) : Prop :=
  place.name ≠ ""

instance : DecidablePred IsNamed :=
  fun _ => inferInstanceAs (Decidable (_ ≠ _))

theorem parts_ne_nil (place : Place) : place.parts ≠ [] :=
  FileTree.partsOf_ne_nil place.name

theorem isNamed_iff {place : Place} : place.IsNamed ↔ place.parts ≠ [""] :=
  not_congr FileTree.partsOf_eq_iff.symm

end Place

/-- A directory of a tree, which need not exist. -/
structure Directory extends Place where
  tree : FileTree

namespace Directory

/-- A directory that holds some entries, as the root of a tree. -/
def ofEntries (entries : List (String × Entry)) : Directory where
  working := []
  name := "."
  tree := FileTree.empty ++ entries.map fun (name, entry) => (FileTree.key [name], entry)

/-- A directory that cannot be made, since a file stands in its place. -/
def blocked : Directory where
  working := []
  name := "cache"
  tree := FileTree.empty.insert ["cache"] (.bytes .empty)

/-- The path to which the name of the directory leads. -/
def find (d : Directory) : Except DeadEnd Path :=
  d.tree.locate d.working d.parts

/-- The path at which the files of the directory are, or would be. -/
def site (d : Directory) : Except DeadEnd Path :=
  if d.IsNamed then d.find else .ok d.working

/-- The path at which the files of the directory are, if it exists. -/
def path? (d : Directory) : Option Path :=
  match d.site with
  | .ok path => if d.tree.isFolder path then some path else none
  | .error _ => none

/-- Whether anything stands in the place of the directory. -/
def isTaken (d : Directory) : Bool :=
  match d.find with
  | .ok path => (d.tree.find? path).isSome
  | .error _ => false

/-- The directory after it is made, if nothing stands in its place. -/
def make (d : Directory) : Directory :=
  { d with tree := d.tree.makeFolders d.working d.parts }

/-! ## Names -/

/-- The way of a file name. -/
def wayOf (d : Directory) (name : String) : List String :=
  if name.toList.head? = some '/' then FileTree.partsOf name
  else FileTree.extend d.parts (FileTree.partsOf name)

/-- The path that a file name leads to. -/
def locate (d : Directory) (name : String) : Except DeadEnd Path :=
  d.tree.locate d.working (d.wayOf name)

/-- What a file name leads to. -/
def entry? (d : Directory) (name : String) : Option Entry :=
  match d.locate name with
  | .ok path => d.tree.find? path
  | .error _ => none

/-- A name that is one step down from the directory. -/
def IsPlain (name : String) : Prop :=
  FileTree.IsName name ∧ '/' ∉ name.toList

instance : DecidablePred IsPlain :=
  fun _ => inferInstanceAs (Decidable (_ ∧ _))

/-- The way of a plain name is that of the directory and one step more. -/
theorem wayOf_of_isPlain {d : Directory} {name : String} (hn : IsPlain name) :
    d.wayOf name = FileTree.extend d.parts [name] := by
  have hhead : ¬name.toList.head? = some '/' := fun h => hn.2 (List.mem_of_mem_head? h)
  rw [wayOf, if_neg hhead, FileTree.partsOf_of_notMem hn.2]

/-- The files of a directory that has a name are where the name leads. -/
theorem site_of_isNamed {d : Directory} (hname : d.IsNamed) : d.site = d.find := by
  rw [site, if_pos hname]

/-- Without a name, the directory has its files in the folder in which the program runs. -/
theorem site_of_not_isNamed {d : Directory} (hname : ¬ d.IsNamed) : d.site = .ok d.working := by
  rw [site, if_neg hname]

/-- The empty name leads nowhere. -/
theorem find_of_not_isNamed {d : Directory} (hname : ¬ d.IsNamed) : d.find = .error .missing := by
  rw [Place.isNamed_iff, Decidable.not_not] at hname
  rw [find, FileTree.locate, if_pos hname]

/-- With a name behind it the way to a directory is refused, since it is too long. -/
def Bars (parts : List String) (name : String) : Prop :=
  FileTree.refuses (FileTree.extend parts [name]) = true

instance (parts : List String) (name : String) : Decidable (Bars parts name) :=
  inferInstanceAs (Decidable (_ = true))

/-! ## Files -/

/-- Whether a file name is that of a file. -/
def isFile (d : Directory) (name : String) : Bool :=
  (d.entry? name).any Entry.isFile

/-- The text of a file. -/
def read? (d : Directory) (name : String) : Option String :=
  match d.entry? name with
  | some (.text content) => some content
  | _ => none

/-- The directory after a text is written to a file, if that can be done. -/
def write? (d : Directory) (name : String) (content : String) : Option Directory :=
  match d.locate name with
  | .ok path =>
    if d.tree.isFolder path then none
    else some { d with tree := d.tree.insert path (.text content) }
  | .error _ => none

/-- The directory after a file is removed; one that is not there counts as removed. -/
def remove? (d : Directory) (name : String) : Option Directory :=
  match d.locate name with
  | .ok path =>
    if d.tree.isFolder path then none else some { d with tree := d.tree.erase path }
  | .error .missing => some d
  | .error .blocked => none

/-- The directory after a folder is made, with all folders on the way to it. -/
def makeFolder (d : Directory) (name : String) : Directory :=
  { d with tree := d.tree.makeFolders d.working (d.wayOf name) }

/-- The entries of the directory itself, by name, without what is in its folders. -/
def listing (d : Directory) : List (String × Entry) :=
  match d.path? with
  | some path => d.tree.entriesOf path
  | none => []

/-- The directory after all its files are removed.  Its folders stay, with what is in them, and so
does a file that cannot be asked for, since its way is too long.  Nothing is removed where the name
of the directory leads nowhere. -/
def clear? (d : Directory) : Option Directory :=
  match d.find with
  | .ok path =>
    match d.tree.find? path with
    | none => some d
    | some .folder =>
      some { d with tree := d.tree.eraseFiles path fun name => !decide (Bars d.parts name) }
    | some _ => none
  | .error .missing => some d
  | .error .blocked => none

end Directory
end TransitChanges.Cache
