import TransitChanges.Proofs.FolderTrees

/-!
# What changes in a directory

Names can lead to one place in several ways, so what an operation does is said of places.  Writing
and removing a file change the place that its name leads to, and clearing the directory changes
places right below it.  Every other place stays as it is, and no folder is taken away; but where the
directory does not exist, folders may be made (`Directory.ChangesOnly`).

Since folders stay, a name goes on leading to the same place.

* `ChangesOnly.trans`, `ChangesOnly.locate`: changes one after the other, and the names between.
* `changesOnly_save`, `changesOnly_erase`, `changesOnly_clear`: what each operation changes.
* `isReachable_of_write?`, `isReachable_erase`, `isReachable_of_clear?`: a reachable directory stays
  so.
-/

namespace TransitChanges.Cache

namespace Directory

variable {d d' d'' : Directory} {name file : String} {p folder : Path} {content : String}

/-! ## Places -/

/-- The place is right below the directory. -/
def Lists (d : Directory) (p : Path) : Prop :=
  ∃ folder name, d.path? = some folder ∧ p = folder ++ [name]

/-- What stands at a place stands there later, but for a folder that is made where nothing was,
which is done only while the directory does not exist. -/
def Keeps (d d' : Directory) (p : Path) : Prop :=
  d'.tree.find? p = d.tree.find? p ∨
    d.path? = none ∧ d.tree.find? p = none ∧ d'.tree.find? p = some .folder

/-- A directory comes from another by changes that touch some places and take no folder away. -/
structure ChangesOnly (touched : Path → Prop) (d d' : Directory) : Prop where
  toPlace_eq : d'.toPlace = d.toPlace
  folders {p : Path} : d.tree.find? p = some .folder → d'.tree.find? p = some .folder
  keeps {p : Path} : ¬ touched p → d.Keeps d' p
  isOrderly : d.tree.IsOrderly → d'.tree.IsOrderly
  /-- No folder is made in a directory that exists. -/
  folder_of_folder {folder p : Path} : d.path? = some folder →
    d'.tree.find? p = some .folder → d.tree.find? p = some .folder

namespace ChangesOnly

variable {touched touched' : Path → Prop}

theorem refl (touched : Path → Prop) (d : Directory) : d.ChangesOnly touched d :=
  ⟨rfl, id, fun _ => .inl rfl, id, fun _ => id⟩

theorem mono (h : d.ChangesOnly touched d') (hle : ∀ p, touched p → touched' p) :
    d.ChangesOnly touched' d' :=
  { h with keeps := fun hp => h.keeps fun htouched => hp (hle _ htouched) }

/-- The directory stays where it is. -/
theorem path? (h : d.ChangesOnly touched d') (hfolder : d.path? = some folder) :
    d'.path? = some folder :=
  path?_mono h.toPlace_eq (fun _ => h.folders) hfolder

theorem wayOf_eq (h : d.ChangesOnly touched d') (name : String) : d'.wayOf name = d.wayOf name := by
  rw [wayOf, wayOf, h.toPlace_eq]

/-- A name goes on leading to the same place. -/
theorem locate (h : d.ChangesOnly touched d') (hname : d.locate name = .ok p) :
    d'.locate name = .ok p := by
  rw [Directory.locate, h.wayOf_eq, h.toPlace_eq]
  exact FileTree.locate_mono (fun _ => h.folders) hname

theorem lists (h : d.ChangesOnly touched d') (hp : d.Lists p) : d'.Lists p := by
  obtain ⟨folder, name, hfolder, rfl⟩ := hp
  exact ⟨folder, name, h.path? hfolder, rfl⟩

/-- Changes one after the other. -/
theorem trans (h : d.ChangesOnly touched d') (h' : d'.ChangesOnly touched d'') :
    d.ChangesOnly touched d'' where
  toPlace_eq := h'.toPlace_eq.trans h.toPlace_eq
  folders := fun hp => h'.folders (h.folders hp)
  keeps := by
    intro p hp
    rcases h.keeps hp with heq | ⟨hnone, hnothing, hmade⟩
    · rcases h'.keeps hp with heq' | ⟨hnone, hnothing, hmade⟩
      · exact .inl (heq'.trans heq)
      · refine .inr ⟨?_, heq ▸ hnothing, hmade⟩
        refine Option.eq_none_iff_forall_ne_some.mpr fun folder hfolder => ?_
        cases hnone.symm.trans (h.path? hfolder)
    · exact .inr ⟨hnone, hnothing, h'.folders hmade⟩
  isOrderly := fun ho => h'.isOrderly (h.isOrderly ho)
  folder_of_folder := fun hfolder hp =>
    h.folder_of_folder hfolder (h'.folder_of_folder (h.path? hfolder) hp)

/-- A file that is not touched stays. -/
theorem find?_of_text (h : d.ChangesOnly touched d') (hp : ¬ touched p)
    (htext : d.tree.find? p = some (.text content)) :
    d'.tree.find? p = some (.text content) := by
  rcases h.keeps hp with heq | ⟨-, hnothing, -⟩
  · exact heq.trans htext
  · cases hnothing.symm.trans htext

/-- In a directory that exists a name leads to a place only if it did before. -/
theorem locate_of_path? (h : d.ChangesOnly touched d') (hfolder : d.path? = some folder)
    (hname : d'.locate name = .ok p) : d.locate name = .ok p := by
  rw [Directory.locate, h.wayOf_eq, h.toPlace_eq] at hname
  exact FileTree.locate_mono (fun _ => h.folder_of_folder hfolder) hname

end ChangesOnly

/-! ## Changes of a directory -/

theorem changesOnly_make (d : Directory) : d.ChangesOnly (fun _ => False) d.make where
  toPlace_eq := rfl
  folders := by
    intro p hp
    rcases FileTree.find?_makeFolders d.tree d.working d.parts p with heq | ⟨hnothing, -⟩
    · exact heq.trans hp
    · cases hnothing.symm.trans hp
  keeps := by
    intro p _
    cases hfolder : d.path? with
    | some folder => rw [make_of_path? hfolder]; exact .inl rfl
    | none =>
      rcases FileTree.find?_makeFolders d.tree d.working d.parts p with heq | ⟨hnothing, hmade⟩
      · exact .inl heq
      · exact .inr ⟨hfolder, hnothing, hmade⟩
  isOrderly := fun ho => FileTree.isOrderly_makeFolders ho d.working d.parts
  folder_of_folder := by
    intro folder p hfolder hp
    rw [make_of_path? hfolder] at hp
    exact hp

theorem write?_eq_some (h : d.write? name content = some d') :
    ∃ p, d.locate name = .ok p ∧ d.tree.find? p ≠ some .folder ∧
      d' = { d with tree := d.tree.insert p (.text content) } := by
  unfold write? at h
  split at h
  · next p hlocate =>
    split at h
    · cases h
    · next hfile =>
      exact ⟨p, hlocate, mt FileTree.isFolder_iff.mpr hfile, (Option.some.inj h).symm⟩
  · cases h

theorem remove?_eq_some (h : d.remove? name = some d') :
    (∃ p, d.locate name = .ok p ∧ d.tree.find? p ≠ some .folder ∧
      d' = { d with tree := d.tree.erase p }) ∨
    (∃ e, d.locate name = .error e) ∧ d' = d := by
  unfold remove? at h
  split at h
  · next p hlocate =>
    split at h
    · cases h
    · next hfile =>
      exact .inl ⟨p, hlocate, mt FileTree.isFolder_iff.mpr hfile, (Option.some.inj h).symm⟩
  · next hlocate => exact .inr ⟨⟨_, hlocate⟩, (Option.some.inj h).symm⟩
  · cases h

/-- A file name has a way. -/
theorem wayOf_ne_nil (d : Directory) (name : String) : d.wayOf name ≠ [] := by
  have hparts := FileTree.partsOf_ne_nil name
  unfold wayOf FileTree.extend
  split
  · exact hparts
  · split
    · exact List.append_ne_nil_of_right_ne_nil _ hparts
    · exact List.append_ne_nil_of_right_ne_nil _ hparts

/-- Writing a file touches the place that its name leads to. -/
theorem changesOnly_write (hname : d.locate name = .ok p) (hfile : d.tree.find? p ≠ some .folder)
    (content : String) :
    d.ChangesOnly (fun q => q = p) { d with tree := d.tree.insert p (.text content) } where
  toPlace_eq := rfl
  folders := FileTree.find?_insert_of_folder hfile _
  keeps := fun hq => .inl (by rw [FileTree.find?_insert, if_neg hq])
  isOrderly := fun ho =>
    FileTree.isOrderly_insert ho
      (FileTree.hasParent_of_locate ho (d.wayOf_ne_nil name) hname) hfile _
  folder_of_folder := fun _ hq => FileTree.folder_of_insert hq

/-- Removing a file touches the place that its name leads to. -/
theorem changesOnly_erase (hfile : d.tree.find? p ≠ some .folder) :
    d.ChangesOnly (fun q => q = p) { d with tree := d.tree.erase p } where
  toPlace_eq := rfl
  folders := FileTree.find?_erase_of_folder hfile
  keeps := fun hq => .inl (by rw [FileTree.find?_erase, if_neg hq])
  isOrderly := fun ho => FileTree.isOrderly_erase ho hfile
  folder_of_folder := fun _ hq => FileTree.folder_of_erase hq

theorem ne_folder_of_isFile {tree : FileTree} (h : tree.isFile p = true) :
    tree.find? p ≠ some .folder := by
  intro hfolder
  rw [FileTree.isFile, hfolder] at h
  cases h

/-- Clearing touches the files right below the directory. -/
theorem changesOnly_eraseFiles (hfolder : d.path? = some folder) (asked : String → Bool) :
    d.ChangesOnly d.Lists { d with tree := d.tree.eraseFiles folder asked } where
  toPlace_eq := rfl
  folders := FileTree.find?_eraseFiles_of_folder folder asked
  keeps := by
    intro q hq
    refine .inl ?_
    rw [FileTree.find?_eraseFiles, if_neg ?_]
    rintro ⟨hparent, -, hfile⟩
    cases q using List.reverseRecOn with
    | nil =>
      -- the root is no file, since the directory that has it as its parent would be the root
      rw [List.dropLast_nil] at hparent
      subst hparent
      exact ne_folder_of_isFile hfile (path?_eq_some_iff.mp hfolder).2
    | append_singleton q name =>
      rw [List.dropLast_concat] at hparent
      exact hq ⟨folder, name, hfolder, by rw [hparent]⟩
  isOrderly := fun ho => FileTree.isOrderly_eraseFiles ho folder asked
  folder_of_folder := fun _ hq => FileTree.folder_of_eraseFiles hq

/-! ## Storing and clearing -/

/-- Storing makes the directory and touches the place that the name leads to. -/
theorem changesOnly_save (h : d.make.write? name content = some d') :
    ∃ p, d'.locate name = .ok p ∧ d'.tree.find? p = some (.text content) ∧
      d.ChangesOnly (fun q => q = p) d' := by
  obtain ⟨p, hname, hfile, rfl⟩ := write?_eq_some h
  have hwrite := changesOnly_write hname hfile content
  refine ⟨p, hwrite.locate hname, ?_, ?_⟩
  · rw [FileTree.find?_insert, if_pos rfl]
  · exact ((changesOnly_make d).mono fun q h => h.elim).trans hwrite

/-- No file that can be asked for is left right below a directory that has a name and was cleared. -/
theorem isFile_of_clear? (h : d.clear? = some d') (hname : d.IsNamed)
    (hfolder : d.path? = some folder) {file : String} (hbars : ¬ Bars d.parts file) :
    d'.tree.isFile (folder ++ [file]) = false := by
  rcases clear?_eq_some h with ⟨there, -, hthere, rfl⟩ | ⟨hnone, -⟩
  · obtain rfl := Option.some.inj (hthere.symm.trans hfolder)
    rw [FileTree.isFile, FileTree.find?_eraseFiles, List.dropLast_concat, List.getLast?_concat,
      Option.any_some, decide_eq_false hbars]
    split
    · rfl
    · next hkept => exact Bool.eq_false_iff.mpr fun hfile => hkept ⟨rfl, rfl, hfile⟩
  · cases (hnone hname).symm.trans hfolder

/-- Clearing touches what is right below the directory. -/
theorem changesOnly_clear (h : d.clear? = some d') : d.ChangesOnly d.Lists d' := by
  rcases clear?_eq_some h with ⟨folder, -, hfolder, rfl⟩ | ⟨-, rfl⟩
  · exact changesOnly_eraseFiles hfolder _
  · exact .refl _ _

/-! ## Reachable directories -/

/-- Storing makes the directory, or a file stands in its place, unless it has no name. -/
theorem isReachable_of_write? (hreach : d.IsReachable) (htaken : d.IsNamed → d.make.isTaken = true)
    (h : d.make.write? name content = some d') : d'.IsReachable := by
  obtain ⟨q, hname, hfile, rfl⟩ := write?_eq_some h
  have hwrite := changesOnly_write hname hfile content
  cases hpath : d.make.path? with
  | some folder => exact .inl ⟨folder, hwrite.path? hpath⟩
  | none =>
    rcases hreach with ⟨folder, hfolder⟩ | ⟨ho, -⟩
    · cases hpath.symm.trans ((changesOnly_make d).path? hfolder)
    · refine .inr ⟨hwrite.isOrderly ((changesOnly_make d).isOrderly ho),
        fun tree p hsite hfolder => ?_⟩
      have hthere : ∃ there, d.make.site = .ok there := by
        by_cases hnamed : d.IsNamed
        · rw [site_of_isNamed (d := d.make) hnamed]
          have htaken := htaken hnamed
          unfold isTaken at htaken
          split at htaken
          · next there hfind => exact ⟨there, hfind⟩
          · cases htaken
        · exact ⟨_, site_of_not_isNamed (d := d.make) hnamed⟩
      obtain ⟨there, hthere⟩ := hthere
      have hplace : d.make.toPlace = { d.make with tree }.toPlace := rfl
      obtain rfl := site_unique hplace hsite hthere
      have hmade := FileTree.folder_of_insert hfolder
      cases hpath.symm.trans (path?_eq_some_iff.mpr ⟨hthere, hmade⟩)

theorem isReachable_erase (hreach : d.IsReachable) (hfile : d.tree.find? p ≠ some .folder) :
    IsReachable { d with tree := d.tree.erase p } := by
  have herase := changesOnly_erase (d := d) hfile
  rcases hreach with ⟨folder, hfolder⟩ | ⟨ho, hsite⟩
  · exact .inl ⟨folder, herase.path? hfolder⟩
  · exact .inr ⟨herase.isOrderly ho, fun tree q hplace hfolder =>
      hsite tree q hplace (FileTree.folder_of_erase hfolder)⟩

theorem isReachable_of_clear? (hreach : d.IsReachable) (h : d.clear? = some d') :
    d'.IsReachable := by
  rcases clear?_eq_some h with ⟨folder, -, hfolder, -⟩ | ⟨-, rfl⟩
  · exact .inl ⟨folder, path?_of_clear? h hfolder⟩
  · exact hreach

end Directory
end TransitChanges.Cache
