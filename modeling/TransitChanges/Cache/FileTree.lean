/-!
# Trees of files

A tree of files tells what stands at which *path*.  A path is the list of names from the root of the
tree downwards, and the root itself is a folder.

A file is asked for by a *way*, a text whose *parts* stand between slashes.  They are walked one
after the other, from the root if the text begins with a slash and else from the *working* folder,
and each needs a folder to start from: a name leads down, `..` leads up, and an empty part or a
single dot leads nowhere else.  So a way that leads through a folder needs that folder even if it
goes up again at once.  The empty text is no way and leads nowhere.  A way that is too long, or
holds a zero character, is refused before it is walked.

* `partsOf_of_notMem`: a text without a slash has one part.
* `partsOf_eq_iff`: only the empty text has the parts of the empty text.
* `find?_insert`, `find?_erase`: writing and removing change one path.
* `find?_eraseFiles`: what is left of a folder without its files.
* `step_of_isName`: a name leads one step down from a folder.
* `walk_append`, `walk_extend`: a way can be walked in two stretches.
-/

namespace TransitChanges.Cache

/-- What stands at a path. -/
inductive Entry where
  /-- A file that holds a text in UTF-8. -/
  | text (content : String)
  /-- A file whose bytes are no such text. -/
  | bytes (content : ByteArray)
  | folder

namespace Entry

/-- Whether it is a folder. -/
def isFolder : Entry → Bool
  | folder => true
  | _ => false

/-- Whether it is a file. -/
def isFile (entry : Entry) : Bool :=
  !entry.isFolder

end Entry

/-- The names from the root of a tree downwards. -/
abbrev Path := List String

/-- A path with its depth, by which most paths are told apart at once. -/
abbrev PathKey := Nat × Path

/-- What stands at which path, each path once. -/
abbrev FileTree := List (PathKey × Entry)

/-- Why a way leads to no path. -/
inductive DeadEnd where
  /-- It goes on where nothing stands. -/
  | missing
  /-- It goes on from a file, or it is no way that can be asked for. -/
  | blocked
  deriving DecidableEq

namespace FileTree

/-! ## Parts -/

/-- The stretches of a text between its slashes, before the first and behind the last included. -/
def between : List Char → List (List Char)
  | [] => [[]]
  | c :: cs => if c = '/' then [] :: between cs else (between cs).modifyHead (c :: ·)

/-- The parts of a text. -/
def partsOf (text : String) : List String :=
  (between text.toList).map String.ofList

theorem between_of_notMem {cs : List Char} (h : '/' ∉ cs) : between cs = [cs] := by
  induction cs with
  | nil => rfl
  | cons c cs ih =>
    rw [List.mem_cons, not_or] at h
    rw [between, if_neg (Ne.symm h.1), ih h.2]
    rfl

/-- A text without a slash has one part. -/
theorem partsOf_of_notMem {text : String} (h : '/' ∉ text.toList) : partsOf text = [text] := by
  rw [partsOf, between_of_notMem h, List.map_cons, List.map_nil, String.ofList_toList]

theorem between_ne_nil (cs : List Char) : between cs ≠ [] := by
  induction cs with
  | nil => exact List.cons_ne_nil _ _
  | cons c cs ih =>
    rw [between]
    split
    · exact List.cons_ne_nil _ _
    · rwa [ne_eq, List.modifyHead_eq_nil_iff]

theorem between_eq_iff {cs : List Char} : between cs = [[]] ↔ cs = [] := by
  refine ⟨fun h => ?_, fun h => by rw [h, between]⟩
  cases cs with
  | nil => rfl
  | cons c cs =>
    rw [between] at h
    split at h
    · exact absurd (List.cons.inj h).2 (between_ne_nil cs)
    · cases hrest : between cs with
      | nil => exact absurd hrest (between_ne_nil cs)
      | cons first rest =>
        rw [hrest] at h
        cases (List.cons.inj h).1

theorem partsOf_ne_nil (text : String) : partsOf text ≠ [] := by
  rw [partsOf, ne_eq, List.map_eq_nil_iff]
  exact between_ne_nil _

/-- Only the empty text has the parts of the empty text. -/
theorem partsOf_eq_iff {text : String} : partsOf text = [""] ↔ text = "" := by
  have hempty : [""] = [[]].map String.ofList := rfl
  rw [partsOf, hempty, List.map_inj_right fun _ _ h => String.ofList_injective h, between_eq_iff,
    String.toList_eq_nil_iff]

/-! ## Entries -/

/-- The key of a path. -/
def key (path : Path) : PathKey :=
  (path.length, path)

theorem key_inj {p q : Path} : key p = key q ↔ p = q :=
  ⟨fun h => congrArg Prod.snd h, fun h => congrArg key h⟩

/-- The tree that has a root and nothing else. -/
def empty : FileTree := [(key [], .folder)]

/-- What a list holds under a key. -/
def lookup (k : PathKey) : FileTree → Option Entry
  | [] => none
  | (q, e) :: tree => if q.1 = k.1 ∧ q.2 = k.2 then some e else lookup k tree

/-- What stands at a path. -/
def find? (tree : FileTree) (path : Path) : Option Entry :=
  lookup (key path) tree

/-- Whether a folder stands at a path. -/
def isFolder (tree : FileTree) (path : Path) : Bool :=
  (tree.find? path).any Entry.isFolder

/-- Whether a file stands at a path. -/
def isFile (tree : FileTree) (path : Path) : Bool :=
  (tree.find? path).any Entry.isFile

/-- The tree without what stands at a path. -/
def erase (tree : FileTree) (path : Path) : FileTree :=
  let k := key path
  tree.filter fun e => e.1 != k

/-- The tree with an entry at a path, in place of any other. -/
def insert (tree : FileTree) (path : Path) (entry : Entry) : FileTree :=
  (key path, entry) :: erase tree path

/-- The tree without the files right below a folder that can be asked for by name. -/
def eraseFiles (tree : FileTree) (folder : Path) (asked : String → Bool) : FileTree :=
  tree.filter fun e =>
    !(e.1.2.dropLast == folder && e.1.2.getLast?.any asked && tree.isFile e.1.2)

/-- The entries right below a folder, by name. -/
def entriesOf (tree : FileTree) (folder : Path) : List (String × Entry) :=
  tree.filterMap fun ((_, path), entry) =>
    match path.getLast? with
    | some name => if path.dropLast = folder then some (name, entry) else none
    | none => none

theorem lookup_cons (q : PathKey) (e : Entry) (tree : FileTree) (k : PathKey) :
    lookup k ((q, e) :: tree) = if q = k then some e else lookup k tree := by
  obtain ⟨d, p⟩ := q
  simp only [lookup, Prod.ext_iff]

theorem find?_cons (p : Path) (e : Entry) (tree : FileTree) (path : Path) :
    find? ((key p, e) :: tree) path = if path = p then some e else find? tree path := by
  rw [find?, lookup_cons]
  by_cases h : path = p
  · simp [h]
  · rw [if_neg fun hk => h (key_inj.mp hk).symm, if_neg h, find?]

/-- What is left of a tree when some paths are dropped. -/
theorem find?_filter (keep : PathKey → Bool) (tree : FileTree) (path : Path) :
    find? (tree.filter fun e => keep e.1) path =
      if keep (key path) then find? tree path else none := by
  unfold find?
  induction tree with
  | nil => simp [lookup]
  | cons e tree ih =>
    obtain ⟨q, e⟩ := e
    rw [List.filter_cons]
    by_cases h : q = key path
    · subst h
      cases hk : keep (key path) <;> simp [hk, ih, lookup_cons]
    · cases hk : keep q <;> simp [lookup_cons, h, ih]

/-- Removing changes one path. -/
theorem find?_erase (tree : FileTree) (p path : Path) :
    find? (erase tree p) path = if path = p then none else find? tree path := by
  unfold erase
  dsimp only
  rw [find?_filter (· != key p)]
  by_cases h : path = p
  · simp [h]
  · have hk : ¬ key path = key p := fun hk => h (key_inj.mp hk)
    simp [h, hk]

/-- Writing changes one path. -/
theorem find?_insert (tree : FileTree) (p : Path) (entry : Entry) (path : Path) :
    find? (insert tree p entry) path = if path = p then some entry else find? tree path := by
  rw [insert, find?_cons, find?_erase]
  split <;> rfl

/-- Of a folder without its files, all is left that is no file right below it, or cannot be asked
for. -/
theorem find?_eraseFiles (tree : FileTree) (folder : Path) (asked : String → Bool) (path : Path) :
    find? (eraseFiles tree folder asked) path =
      if path.dropLast = folder ∧ path.getLast?.any asked = true ∧ tree.isFile path = true then none
      else find? tree path := by
  rw [eraseFiles, find?_filter fun k =>
    !(k.2.dropLast == folder && k.2.getLast?.any asked && tree.isFile k.2)]
  change (if !(path.dropLast == folder && path.getLast?.any asked && tree.isFile path) then _
    else _) = _
  by_cases h : path.dropLast = folder ∧ path.getLast?.any asked = true ∧ tree.isFile path = true
  · obtain ⟨hparent, hasked, hfile⟩ := h
    simp [hparent, hasked, hfile]
  · rw [if_neg h, if_pos ?_]
    rw [Bool.not_eq_true', Bool.eq_false_iff, ne_eq, Bool.and_eq_true, Bool.and_eq_true,
      beq_iff_eq, and_assoc]
    exact h

/-! ## Ways -/

/-- The longest name in bytes. -/
def nameLimit : Nat := 255

/-- The longest way in bytes, with what ends each part: a slash, or a zero behind the last. -/
def wayLimit : Nat := 4096

/-- A way with more parts behind it.  If it ends in a slash, no other comes before them, and none
does if it is empty. -/
def extend (way more : List String) : List String :=
  if way.getLast? = some "" then way.dropLast ++ more else way ++ more

/-- The length of a way in bytes. -/
def wayLength (way : List String) : Nat :=
  way.foldr (fun part length => part.utf8ByteSize + 1 + length) 0

/-- Whether a way is refused as a whole. -/
def refuses (way : List String) : Bool :=
  way.any (fun part => part.toList.contains '\x00') || wayLimit < wayLength way

/-- Where a way starts: at the root if it begins with a slash, and else in the working folder. -/
def origin (working : Path) (way : List String) : Path :=
  if way.head? = some "" then [] else working

/-- A part that leads one step down. -/
def IsName (part : String) : Prop :=
  part ≠ "" ∧ part ≠ "." ∧ part ≠ ".." ∧ part.utf8ByteSize ≤ nameLimit

instance : DecidablePred IsName :=
  fun _ => inferInstanceAs (Decidable (_ ∧ _))

/-- Where one part of a way leads. -/
def step (tree : FileTree) (here : Path) (part : String) : Except DeadEnd Path :=
  match tree.find? here with
  | none => .error .missing
  | some .folder =>
    if part = "" ∨ part = "." then .ok here
    else if part = ".." then .ok here.dropLast
    else if part.utf8ByteSize ≤ nameLimit then .ok (here ++ [part])
    else .error .blocked
  | some _ => .error .blocked

/-- Where the parts of a way lead.  There may be nothing at the end of it. -/
def walk (tree : FileTree) (here : Path) (parts : List String) : Except DeadEnd Path :=
  parts.foldlM tree.step here

/-- The path that a way leads to. -/
def locate (tree : FileTree) (working : Path) (way : List String) : Except DeadEnd Path :=
  if way = [""] then .error .missing
  else if refuses way then .error .blocked
  else tree.walk (origin working way) way

/-- A name leads one step down from a folder. -/
theorem step_of_isName {tree : FileTree} {here : Path} {name : String}
    (hf : tree.isFolder here = true) (hn : IsName name) :
    tree.step here name = .ok (here ++ [name]) := by
  obtain ⟨hempty, hdot, hup, hsize⟩ := hn
  unfold step
  unfold isFolder at hf
  cases h : tree.find? here with
  | none => simp [h] at hf
  | some entry =>
    cases entry with
    | folder => simp [hempty, hdot, hup, hsize]
    | text content => simp [h, Entry.isFolder] at hf
    | bytes content => simp [h, Entry.isFolder] at hf

/-- A way can be walked in two stretches. -/
theorem walk_append (tree : FileTree) (here : Path) (parts rest : List String) :
    tree.walk here (parts ++ rest) =
      (tree.walk here parts).bind fun there => tree.walk there rest :=
  List.foldlM_append

/-- An empty part at the end of a way leads nowhere else. -/
theorem walk_dropLast {tree : FileTree} {here there : Path} {way : List String}
    (hlast : way.getLast? = some "") (h : tree.walk here way = .ok there) :
    tree.walk here way.dropLast = .ok there := by
  obtain ⟨before, rfl⟩ := List.getLast?_eq_some_iff.mp hlast
  rw [walk_append] at h
  rw [List.dropLast_concat]
  cases hw : tree.walk here before with
  | error e =>
    rw [hw] at h
    cases h
  | ok last =>
    rw [hw] at h
    change (tree.step last "").bind .ok = .ok there at h
    unfold step at h
    split at h
    · cases h
    · rw [if_pos (Or.inl rfl)] at h
      exact h
    · cases h

/-- More parts are walked from where a way leads. -/
theorem walk_extend {tree : FileTree} {here there : Path} {way : List String}
    (h : tree.walk here way = .ok there) (more : List String) :
    tree.walk here (extend way more) = tree.walk there more := by
  unfold extend
  split
  · next hlast =>
    rw [walk_append, walk_dropLast hlast h]
    rfl
  · rw [walk_append, h]
    rfl

/-! ## Folders -/

/-- The tree after folders are made on a way, from some path on, as far as that can be done. -/
def makeFrom (tree : FileTree) (here : Path) : List String → FileTree
  | [] => tree
  | part :: parts =>
    match tree.step here part with
    | .error _ => tree
    | .ok there =>
      match tree.find? there with
      | none => makeFrom (tree.insert there .folder) there parts
      | some .folder => makeFrom tree there parts
      | some _ => tree

/-- The parts of a way at which a folder is made if there is none.  A single dot at the end needs
the folder before it to be there already. -/
def partsMade (way : List String) : List String :=
  if (way.reverse.dropWhile (· = "")).head? = some "." then
    ((way.reverse.dropWhile fun part => part = "" ∨ part = ".").drop 1).reverse
  else way

/-- The tree after all folders on a way are made, as far as that can be done. -/
def makeFolders (tree : FileTree) (working : Path) (way : List String) : FileTree :=
  if refuses way then tree else tree.makeFrom (origin working way) (partsMade way)

end FileTree
end TransitChanges.Cache
