import TransitChanges.Cache.Directory

/-!
# What operations do to a directory

A directory is found by a way that may lead up and down through other folders, and the operations on
its files change the tree that the way is walked in.  What keeps the directory in its place is that
no operation takes a folder away (`FileTree.walk_mono`).  So the directory is seen here by its plain
names alone: under each of them stands an entry or nothing, and an operation changes one of these.

A directory that does not exist shows nothing.  Making it is done once and for all (`make_make`),
and not at all where it exists (`make_of_path?`).

Names that are plain can be refused nevertheless, where they make the way too long.  Whether they do
(`Directory.Bars`) depends on the way alone, so it never changes.

* `locate_eq_ok_iff`: where a plain name leads.
* `wrote_of_write?`, `exists_write?`: writing changes what stands under one name.
* `clear?_eq_some`, `entry?_of_clear?`: clearing leaves no file, if the directory has a name.
-/

namespace TransitChanges.Cache

namespace FileTree

variable {tree tree' : FileTree} {here there : Path} {parts : List String}

/-! ## Folders that stay -/

/-- A step that leads on starts from a folder. -/
theorem find?_of_step {part : String} (h : tree.step here part = .ok there) :
    tree.find? here = some .folder := by
  unfold step at h
  split at h
  · cases h
  · next hfolder => exact hfolder
  · cases h

/-- A step leads to the same path in every tree that has the folder. -/
theorem step_eq_of_folder {part : String} (h : tree.find? here = some .folder)
    (h' : tree'.find? here = some .folder) : tree.step here part = tree'.step here part := by
  unfold step
  rw [h, h']

/-- A way leads to the same path where no folder is missing. -/
theorem walk_mono (hfolders : ∀ p, tree.find? p = some .folder → tree'.find? p = some .folder)
    (h : tree.walk here parts = .ok there) : tree'.walk here parts = .ok there := by
  induction parts generalizing here with
  | nil => exact h
  | cons part parts ih =>
    rw [walk, List.foldlM_cons] at h ⊢
    cases hstep : tree.step here part with
    | error e =>
      rw [hstep] at h
      cases h
    | ok next =>
      have hfolder := find?_of_step hstep
      rw [hstep] at h
      rw [← step_eq_of_folder hfolder (hfolders here hfolder), hstep]
      exact ih h

/-- A way to a folder starts from one. -/
theorem find?_of_walk (h : tree.walk here parts = .ok there)
    (hthere : tree.find? there = some .folder) : tree.find? here = some .folder := by
  cases parts with
  | nil =>
    cases h
    exact hthere
  | cons part parts =>
    rw [walk, List.foldlM_cons] at h
    cases hstep : tree.step here part with
    | error e =>
      rw [hstep] at h
      cases h
    | ok next => exact find?_of_step hstep

/-! ## Folders that are made -/

/-- What stands in a tree stays there when folders are made. -/
theorem find?_makeFrom {p : Path} {e : Entry} (h : tree.find? p = some e) :
    (tree.makeFrom here parts).find? p = some e := by
  induction parts generalizing tree here with
  | nil => exact h
  | cons part parts ih =>
    unfold makeFrom
    split
    · exact h
    · next there _ =>
      split
      · next hnone =>
        refine ih ?_
        rw [find?_insert, if_neg ?_]
        · exact h
        · rintro rfl
          rw [h] at hnone
          cases hnone
      · exact ih h
      · exact h

theorem makeFrom_of_folder {part : String} (hstep : tree.step here part = .ok there)
    (hthere : tree.find? there = some .folder) :
    tree.makeFrom here (part :: parts) = tree.makeFrom there parts := by
  rw [makeFrom, hstep]
  dsimp only
  rw [hthere]

/-- Folders are made once. -/
theorem makeFrom_makeFrom (tree : FileTree) (here : Path) (parts : List String) :
    (tree.makeFrom here parts).makeFrom here parts = tree.makeFrom here parts := by
  induction parts generalizing tree here with
  | nil => rfl
  | cons part parts ih =>
    cases hstep : tree.step here part with
    | error e =>
      have hmade : tree.makeFrom here (part :: parts) = tree := by rw [makeFrom, hstep]
      rw [hmade, hmade]
    | ok there =>
      have hhere := find?_of_step hstep
      -- what is made below a folder that is there, or has just been made
      have hagain {tree' : FileTree} (hhere' : tree'.find? here = some .folder)
          (hthere' : tree'.find? there = some .folder) :
          (tree'.makeFrom there parts).makeFrom here (part :: parts) =
            tree'.makeFrom there parts := by
        rw [makeFrom_of_folder _ (find?_makeFrom hthere'), ih]
        rw [← hstep]
        exact step_eq_of_folder (find?_makeFrom hhere') hhere
      cases hthere : tree.find? there with
      | none =>
        have hmade : tree.makeFrom here (part :: parts) =
            (tree.insert there .folder).makeFrom there parts := by
          rw [makeFrom, hstep]
          dsimp only
          rw [hthere]
        have hne : here ≠ there := by
          rintro rfl
          rw [hhere] at hthere
          cases hthere
        rw [hmade]
        refine hagain ?_ ?_
        · rw [find?_insert, if_neg hne, hhere]
        · rw [find?_insert, if_pos rfl]
      | some entry =>
        cases entry with
        | folder =>
          rw [makeFrom_of_folder hstep hthere]
          exact hagain hhere hthere
        | text content =>
          have hmade : tree.makeFrom here (part :: parts) = tree := by
            rw [makeFrom, hstep]
            dsimp only
            rw [hthere]
          rw [hmade, hmade]
        | bytes content =>
          have hmade : tree.makeFrom here (part :: parts) = tree := by
            rw [makeFrom, hstep]
            dsimp only
            rw [hthere]
          rw [hmade, hmade]

/-- No folder is made on a way to a folder. -/
theorem makeFrom_eq_self {more : List String} (h : tree.walk here (parts ++ more) = .ok there)
    (hthere : tree.find? there = some .folder) : tree.makeFrom here parts = tree := by
  induction parts generalizing here with
  | nil => rfl
  | cons part parts ih =>
    rw [List.cons_append, walk, List.foldlM_cons] at h
    cases hstep : tree.step here part with
    | error e =>
      rw [hstep] at h
      cases h
    | ok next =>
      rw [hstep] at h
      rw [makeFrom_of_folder hstep (find?_of_walk h hthere)]
      exact ih h

/-- Folders are made on the first parts of a way. -/
theorem exists_eq_partsMade_append (way : List String) : ∃ more, way = partsMade way ++ more := by
  unfold partsMade
  split
  · obtain ⟨more, hmore⟩ := (List.drop_suffix 1 _).trans
      (List.dropWhile_suffix (l := way.reverse) fun part => decide (part = "" ∨ part = "."))
    refine ⟨more.reverse, ?_⟩
    rw [← List.reverse_append, hmore, List.reverse_reverse]
  · exact ⟨[], (List.append_nil way).symm⟩

/-! ## Where ways lead -/

variable {working : Path} {way : List String}

/-- A way leads somewhere if it is not empty, is not refused and can be walked. -/
theorem locate_eq_ok_iff : tree.locate working way = .ok there ↔
    way ≠ [""] ∧ refuses way = false ∧ tree.walk (origin working way) way = .ok there := by
  unfold locate
  split
  · next hempty => simp [hempty]
  · next hway =>
    split
    · next hrefuses => simp [hrefuses]
    · next hrefuses => simp [hway, hrefuses]

/-- A way leads to the same place where no folder is missing. -/
theorem locate_mono (hfolders : ∀ p, tree.find? p = some .folder → tree'.find? p = some .folder)
    (h : tree.locate working way = .ok there) : tree'.locate working way = .ok there := by
  obtain ⟨hway, hrefuses, hwalk⟩ := locate_eq_ok_iff.mp h
  exact locate_eq_ok_iff.mpr ⟨hway, hrefuses, walk_mono hfolders hwalk⟩

theorem makeFolders_makeFolders (tree : FileTree) (working : Path) (way : List String) :
    (tree.makeFolders working way).makeFolders working way = tree.makeFolders working way := by
  unfold makeFolders
  split
  · rfl
  · exact makeFrom_makeFrom tree _ _

theorem makeFolders_eq_self (h : tree.locate working way = .ok there)
    (hthere : tree.find? there = some .folder) : tree.makeFolders working way = tree := by
  obtain ⟨-, hrefuses, hwalk⟩ := locate_eq_ok_iff.mp h
  obtain ⟨more, hway⟩ := exists_eq_partsMade_append way
  rw [makeFolders, hrefuses, if_neg Bool.false_ne_true]
  have hwhole : tree.walk (origin working way) (partsMade way ++ more) = .ok there := by
    rwa [← hway]
  exact makeFrom_eq_self hwhole hthere

/-- No folder is made for the empty way. -/
theorem makeFolders_empty (tree : FileTree) (working : Path) :
    tree.makeFolders working [""] = tree := by
  have hmade : partsMade [""] = [""] := rfl
  have horigin : origin working [""] = [] := rfl
  have hrefuses : refuses [""] = false := rfl
  rw [makeFolders, hrefuses, if_neg Bool.false_ne_true, hmade, horigin, makeFrom]
  cases hroot : tree.find? [] with
  | none => simp [step, hroot]
  | some entry => cases entry <;> simp [step, hroot, makeFrom]

/-! ## Longer ways -/

theorem wayLength_append (way more : List String) :
    wayLength (way ++ more) = wayLength way + wayLength more := by
  unfold wayLength
  induction way with
  | nil => simp
  | cons part way ih =>
    rw [List.cons_append, List.foldr_cons, List.foldr_cons, ih]
    omega

theorem refuses_eq_false_iff {way : List String} : refuses way = false ↔
    (∀ part ∈ way, '\x00' ∉ part.toList) ∧ wayLength way ≤ wayLimit := by
  simp [refuses]

/-- With more parts a way starts where it does without them, unless it is empty. -/
theorem origin_extend (working : Path) {way : List String} (hway : way ≠ []) (hempty : way ≠ [""])
    (more : List String) : origin working (extend way more) = origin working way := by
  have hhead : (extend way more).head? = way.head? := by
    unfold extend
    split
    · next hlast =>
      obtain ⟨before, rfl⟩ := List.getLast?_eq_some_iff.mp hlast
      cases before with
      | nil => exact absurd rfl hempty
      | cons part before => rw [List.dropLast_concat, List.cons_append, List.cons_append]; rfl
    · cases way with
      | nil => exact absurd rfl hway
      | cons part way => rfl
  rw [origin, origin, hhead]

/-- A way that is not refused with one more name is not refused without it. -/
theorem refuses_of_extend {way : List String} {name : String}
    (h : refuses (extend way [name]) = false) : refuses way = false := by
  have hname : wayLength [name] = name.utf8ByteSize + 1 := rfl
  unfold extend at h
  rw [refuses_eq_false_iff] at h ⊢
  split at h
  · next hlast =>
    obtain ⟨before, rfl⟩ := List.getLast?_eq_some_iff.mp hlast
    have hempty : wayLength [""] = 1 := rfl
    rw [List.dropLast_concat] at h
    rw [wayLength_append] at h ⊢
    refine ⟨fun part hpart => ?_, by omega⟩
    rcases List.mem_append.mp hpart with hpart | hpart
    · exact h.1 part (List.mem_append_left _ hpart)
    · rw [List.mem_singleton.mp hpart]
      decide
  · rw [wayLength_append] at h
    exact ⟨fun part hpart => h.1 part (List.mem_append_left _ hpart), by omega⟩

theorem isFolder_iff {p : Path} : tree.isFolder p = true ↔ tree.find? p = some .folder := by
  unfold isFolder
  cases tree.find? p with
  | none => simp
  | some entry => cases entry <;> simp [Entry.isFolder]

/-- A name is one step down from a folder, and no step more. -/
theorem walk_of_isName {name : String} (hfolder : tree.find? here = some .folder)
    (hn : IsName name) : tree.walk here [name] = .ok (here ++ [name]) := by
  rw [walk, List.foldlM_cons, step_of_isName (isFolder_iff.mpr hfolder) hn]
  rfl

/-- One more name leads below the folder that the names before it lead to. -/
theorem exists_walk_of_concat {before : List String} {name : String} (hn : IsName name)
    (h : tree.walk here (before ++ [name]) = .ok there) :
    ∃ folder, tree.walk here before = .ok folder ∧ tree.find? folder = some .folder ∧
      there = folder ++ [name] := by
  rw [walk_append] at h
  cases hbefore : tree.walk here before with
  | error e =>
    rw [hbefore] at h
    cases h
  | ok folder =>
    rw [hbefore] at h
    change (tree.step folder name).bind .ok = .ok there at h
    cases hstep : tree.step folder name with
    | error e =>
      rw [hstep] at h
      cases h
    | ok next =>
      rw [hstep] at h
      obtain rfl := Except.ok.inj h
      have hfolder := find?_of_step hstep
      rw [step_of_isName (isFolder_iff.mpr hfolder) hn] at hstep
      exact ⟨folder, rfl, hfolder, (Except.ok.inj hstep).symm⟩

/-- A way that ends with a name leads below the folder that the rest of it leads to. -/
theorem exists_walk_of_extend {way : List String} {name : String} (hn : IsName name)
    (h : tree.walk here (extend way [name]) = .ok there) :
    ∃ folder, tree.walk here way = .ok folder ∧ tree.find? folder = some .folder ∧
      there = folder ++ [name] := by
  unfold extend at h
  split at h
  · next hempty =>
    obtain ⟨before, rfl⟩ := List.getLast?_eq_some_iff.mp hempty
    rw [List.dropLast_concat] at h
    obtain ⟨folder, hwalk, hfolder, hthere⟩ := exists_walk_of_concat hn h
    refine ⟨folder, ?_, hfolder, hthere⟩
    rw [walk_append, hwalk]
    change (tree.step folder "").bind .ok = .ok folder
    rw [step, hfolder]
    rfl
  · exact exists_walk_of_concat hn h

end FileTree

namespace Directory

variable {d d' : Directory} {name file : String} {path folder : Path}

/-! ## Making the directory -/

theorem path?_eq_some_iff : d.path? = some path ↔
    d.site = .ok path ∧ d.tree.find? path = some .folder := by
  unfold path?
  split
  · next there hsite =>
    rw [hsite, Except.ok.injEq, Option.ite_none_right_eq_some, Option.some.injEq,
      FileTree.isFolder_iff]
    constructor
    · rintro ⟨hfolder, rfl⟩
      exact ⟨rfl, hfolder⟩
    · rintro ⟨rfl, hfolder⟩
      exact ⟨hfolder, rfl⟩
  · next hsite => simp [hsite]

theorem make_make (d : Directory) : d.make.make = d.make := by
  unfold make
  dsimp only
  rw [FileTree.makeFolders_makeFolders]

/-- Without a name there is no directory to make. -/
theorem make_of_not_isNamed (hname : ¬ d.IsNamed) : d.make = d := by
  rw [Place.isNamed_iff, Decidable.not_not] at hname
  rw [make, hname, FileTree.makeFolders_empty]

theorem make_of_path? (h : d.path? = some path) : d.make = d := by
  by_cases hname : d.IsNamed
  · obtain ⟨hsite, hfolder⟩ := path?_eq_some_iff.mp h
    rw [site_of_isNamed hname] at hsite
    unfold make
    rw [FileTree.makeFolders_eq_self hsite hfolder]
  · exact make_of_not_isNamed hname

@[simp] theorem toPlace_make (d : Directory) : d.make.toPlace = d.toPlace := rfl

/-! ## Plain names -/

/-- The way of a plain name leads below the path at which the files of the directory are. -/
theorem walk_extend_iff (hn : FileTree.IsName name)
    (hbars : FileTree.refuses (FileTree.extend d.parts [name]) = false) :
    d.tree.walk (FileTree.origin d.working (FileTree.extend d.parts [name]))
        (FileTree.extend d.parts [name]) = .ok path ↔
      ∃ folder, d.path? = some folder ∧ path = folder ++ [name] := by
  by_cases hname : d.IsNamed
  · have hparts := Place.isNamed_iff.mp hname
    rw [FileTree.origin_extend _ d.parts_ne_nil hparts]
    constructor
    · intro h
      obtain ⟨folder, hwalk, hfolder, rfl⟩ := FileTree.exists_walk_of_extend hn h
      refine ⟨folder, path?_eq_some_iff.mpr ⟨?_, hfolder⟩, rfl⟩
      rw [site_of_isNamed hname]
      exact FileTree.locate_eq_ok_iff.mpr ⟨hparts, FileTree.refuses_of_extend hbars, hwalk⟩
    · rintro ⟨folder, hpath, rfl⟩
      obtain ⟨hsite, hfolder⟩ := path?_eq_some_iff.mp hpath
      rw [site_of_isNamed hname] at hsite
      obtain ⟨-, -, hwalk⟩ := FileTree.locate_eq_ok_iff.mp hsite
      rw [FileTree.walk_extend hwalk]
      exact FileTree.walk_of_isName hfolder hn
  · have hsite := site_of_not_isNamed hname
    rw [Place.isNamed_iff, Decidable.not_not] at hname
    have horigin : FileTree.origin d.working [name] = d.working :=
      if_neg fun h => hn.1 (Option.some.inj h)
    have hextend : FileTree.extend d.parts [name] = [name] := by rw [hname]; rfl
    rw [hextend, horigin]
    constructor
    · intro h
      -- no part comes before the name
      have hmore : d.tree.walk d.working ([] ++ [name]) = .ok path := h
      obtain ⟨folder, hwalk, hfolder, rfl⟩ := FileTree.exists_walk_of_concat hn hmore
      cases hwalk
      exact ⟨d.working, path?_eq_some_iff.mpr ⟨hsite, hfolder⟩, rfl⟩
    · rintro ⟨folder, hpath, rfl⟩
      obtain ⟨hfolder', hfolder⟩ := path?_eq_some_iff.mp hpath
      obtain rfl := Except.ok.inj (hsite.symm.trans hfolder')
      exact FileTree.walk_of_isName hfolder hn

/-- A plain name leads right below the directory, which has to exist. -/
theorem locate_eq_ok_iff (hn : IsPlain name) : d.locate name = .ok path ↔
    ¬ Bars d.parts name ∧ ∃ folder, d.path? = some folder ∧ path = folder ++ [name] := by
  have hway : FileTree.extend d.parts [name] ≠ [""] := by
    intro h
    have hlast : (FileTree.extend d.parts [name]).getLast? = some name := by
      unfold FileTree.extend
      split <;> exact List.getLast?_concat
    rw [h] at hlast
    exact hn.1.1 (Option.some.inj hlast).symm
  rw [locate, wayOf_of_isPlain hn, FileTree.locate_eq_ok_iff, and_iff_right hway, Bars,
    Bool.not_eq_true]
  exact and_congr_right fun hbars => walk_extend_iff hn.1 hbars

/-- What a plain name leads to stands in the directory. -/
theorem entry?_eq (hn : IsPlain name) (hfolder : d.path? = some folder)
    (hbars : ¬ Bars d.parts name) : d.entry? name = d.tree.find? (folder ++ [name]) := by
  unfold entry?
  rw [(locate_eq_ok_iff hn).mpr ⟨hbars, folder, hfolder, rfl⟩]

theorem entry?_of_bars (hn : IsPlain name) (hbars : Bars d.parts name) : d.entry? name = none := by
  unfold entry?
  split
  · next path h => exact absurd hbars ((locate_eq_ok_iff hn).mp h).1
  · rfl

/-- In a directory that does not exist there is nothing. -/
theorem entry?_of_path?_eq_none (hn : IsPlain name) (h : d.path? = none) :
    d.entry? name = none := by
  unfold entry?
  split
  · next path hlocate =>
    obtain ⟨-, folder, hfolder, -⟩ := (locate_eq_ok_iff hn).mp hlocate
    rw [h] at hfolder
    cases hfolder
  · rfl

/-- The path of the files stays the same if no folder is taken away. -/
theorem site_mono (hplace : d'.toPlace = d.toPlace)
    (hfolders : ∀ p, d.tree.find? p = some .folder → d'.tree.find? p = some .folder)
    (h : d.site = .ok path) : d'.site = .ok path := by
  unfold site find at h ⊢
  rw [hplace]
  split at h
  · next hname =>
    rw [if_pos hname]
    exact FileTree.locate_mono hfolders h
  · next hname =>
    rw [if_neg hname]
    exact h

/-- The directory stays where it is if no folder is taken away. -/
theorem path?_mono (hplace : d'.toPlace = d.toPlace)
    (hfolders : ∀ p, d.tree.find? p = some .folder → d'.tree.find? p = some .folder)
    (h : d.path? = some folder) : d'.path? = some folder := by
  obtain ⟨hsite, hfolder⟩ := path?_eq_some_iff.mp h
  exact path?_eq_some_iff.mpr ⟨site_mono hplace hfolders hsite, hfolders folder hfolder⟩

/-! ## Writing -/

/-- A text written under a plain name. -/
structure Wrote (d : Directory) (name content : String) (d' : Directory) : Prop where
  toPlace_eq : d'.toPlace = d.toPlace
  exists_path? : ∃ folder, d.path? = some folder ∧ d'.path? = some folder
  entry?_self : d'.entry? name = some (.text content)
  entry?_of_ne (other : String) : IsPlain other → other ≠ name → d'.entry? other = d.entry? other

theorem wrote_of_write? {content : String} (hn : IsPlain name)
    (h : d.write? name content = some d') : d.Wrote name content d' := by
  unfold write? at h
  split at h
  · next path hlocate =>
    split at h
    · cases h
    · next hfile =>
      obtain rfl := Option.some.inj h
      obtain ⟨hbars, folder, hfolder, rfl⟩ := (locate_eq_ok_iff hn).mp hlocate
      have hstays {p : Path} (hp : d.tree.find? p = some .folder) :
          (d.tree.insert (folder ++ [name]) (.text content)).find? p = some .folder := by
        rw [FileTree.find?_insert, if_neg ?_]
        · exact hp
        · rintro rfl
          exact hfile (FileTree.isFolder_iff.mpr hp)
      have hfolder' :
          { d with tree := d.tree.insert (folder ++ [name]) (.text content) }.path? =
            some folder := path?_mono (d := d) rfl (fun _ => hstays) hfolder
      refine ⟨rfl, ⟨folder, hfolder, hfolder'⟩, ?_, fun {other} hother hne => ?_⟩
      · rw [entry?_eq hn hfolder' hbars, FileTree.find?_insert, if_pos rfl]
      · by_cases hbarsOther : Bars d.parts other
        · rw [entry?_of_bars hother hbarsOther]
          exact entry?_of_bars hother hbarsOther
        · rw [entry?_eq hother hfolder' hbarsOther, entry?_eq hother hfolder hbarsOther,
            FileTree.find?_insert, if_neg]
          intro heq
          exact hne (List.singleton_inj.mp (List.append_cancel_left heq))
  · cases h

/-- A text can be written under a plain name in a directory that exists. -/
theorem exists_write? (hn : IsPlain name) (hfolder : d.path? = some folder)
    (hbars : ¬ Bars d.parts name) (hfile : d.entry? name ≠ some .folder) (content : String) :
    ∃ d', d.write? name content = some d' := by
  rw [entry?_eq hn hfolder hbars, ne_eq, ← FileTree.isFolder_iff] at hfile
  rw [write?, (locate_eq_ok_iff hn).mpr ⟨hbars, folder, hfolder, rfl⟩]
  dsimp only
  rw [if_neg hfile]
  exact ⟨_, rfl⟩

theorem write?_of_bars (hn : IsPlain name) (hbars : Bars d.parts name) (content : String) :
    d.write? name content = none := by
  unfold write?
  split
  · next path h => exact absurd hbars ((locate_eq_ok_iff hn).mp h).1
  · rfl

/-! ## Clearing -/

/-- Without a name the directory is not found, and nothing is cleared. -/
theorem clear?_of_not_isNamed (hname : ¬ d.IsNamed) : d.clear? = some d := by
  rw [clear?, find_of_not_isNamed hname]

/-- Clearing takes the files away right below a directory that has a name, and does nothing else. -/
theorem clear?_eq_some (h : d.clear? = some d') :
    (∃ folder, d.IsNamed ∧ d.path? = some folder ∧
      d' = { d with
        tree := d.tree.eraseFiles folder fun name => !decide (Bars d.parts name) }) ∨
    (d.IsNamed → d.path? = none) ∧ d' = d := by
  by_cases hname : d.IsNamed
  · have hsite := site_of_isNamed hname
    unfold clear? at h
    split at h
    · next path hfind =>
      rw [hfind] at hsite
      split at h
      · next hnothing =>
        refine .inr ⟨fun _ => ?_, (Option.some.inj h).symm⟩
        refine Option.eq_none_iff_forall_ne_some.mpr fun folder hfolder => ?_
        obtain ⟨hthere, hentry⟩ := path?_eq_some_iff.mp hfolder
        obtain rfl := Except.ok.inj (hsite.symm.trans hthere)
        cases hnothing.symm.trans hentry
      · next hentry =>
        exact .inl ⟨path, hname, path?_eq_some_iff.mpr ⟨hsite, hentry⟩, (Option.some.inj h).symm⟩
      · cases h
    · next hfind =>
      refine .inr ⟨fun _ => ?_, (Option.some.inj h).symm⟩
      rw [path?, hsite, hfind]
    · cases h
  · rw [clear?_of_not_isNamed hname] at h
    exact .inr ⟨fun hname' => absurd hname' hname, (Option.some.inj h).symm⟩

theorem toPlace_of_clear? (h : d.clear? = some d') : d'.toPlace = d.toPlace := by
  rcases clear?_eq_some h with ⟨folder, -, -, rfl⟩ | ⟨-, rfl⟩
  · rfl
  · rfl

theorem path?_of_clear? (h : d.clear? = some d') (hfolder : d.path? = some folder) :
    d'.path? = some folder := by
  rcases clear?_eq_some h with ⟨there, -, -, rfl⟩ | ⟨-, rfl⟩
  · refine path?_mono (d := d) rfl (fun p hp => ?_) hfolder
    rw [FileTree.find?_eraseFiles, if_neg ?_]
    · exact hp
    · rintro ⟨-, -, hfile⟩
      rw [FileTree.isFile, hp] at hfile
      cases hfile
  · exact hfolder

/-- What is left under a plain name in a cleared directory was there before, and it is a folder if
the directory has a name. -/
theorem entry?_of_clear? (h : d.clear? = some d') (hn : IsPlain name) {entry : Entry}
    (hleft : d'.entry? name = some entry) :
    d.entry? name = some entry ∧ (d.IsNamed → entry = .folder) := by
  have hplace := toPlace_of_clear? h
  have hbars : ¬ Bars d.parts name := fun hbars => by
    rw [← hplace] at hbars
    cases (entry?_of_bars hn hbars).symm.trans hleft
  rcases clear?_eq_some h with ⟨folder, -, hfolder, hd'⟩ | ⟨hnone, rfl⟩
  · have hfolder' := path?_of_clear? h hfolder
    rw [entry?_eq hn hfolder' (hplace.symm ▸ hbars), hd', FileTree.find?_eraseFiles] at hleft
    rw [entry?_eq hn hfolder hbars]
    split at hleft
    · cases hleft
    · next hkept =>
      have hparent : (folder ++ [name]).dropLast = folder := List.dropLast_concat
      have hasked : ((folder ++ [name]).getLast?.any fun n => !decide (Bars d.parts n)) = true := by
        rw [List.getLast?_concat, Option.any_some, decide_eq_false hbars, Bool.not_false]
      refine ⟨hleft, fun _ => ?_⟩
      cases entry with
      | folder => rfl
      | text content => exact absurd ⟨hparent, hasked, by rw [FileTree.isFile, hleft]; rfl⟩ hkept
      | bytes content => exact absurd ⟨hparent, hasked, by rw [FileTree.isFile, hleft]; rfl⟩ hkept
  · refine ⟨hleft, fun hname => ?_⟩
    cases (entry?_of_path?_eq_none hn (hnone hname)).symm.trans hleft

/-- A directory that exists can be cleared. -/
theorem exists_clear? (hfolder : d.path? = some folder) : ∃ d', d.clear? = some d' := by
  by_cases hname : d.IsNamed
  · obtain ⟨hsite, hentry⟩ := path?_eq_some_iff.mp hfolder
    rw [site_of_isNamed hname] at hsite
    rw [clear?, hsite]
    dsimp only
    rw [hentry]
    exact ⟨_, rfl⟩
  · exact ⟨d, clear?_of_not_isNamed hname⟩

end Directory
end TransitChanges.Cache
