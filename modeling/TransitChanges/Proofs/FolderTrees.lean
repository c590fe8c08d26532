import Mathlib.Data.List.Induction
import TransitChanges.Proofs.CacheDirectory

/-!
# Folders above and below

In a tree that was put together by file operations every entry stands in a folder
(`FileTree.IsOrderly`), so all folders above a folder are there.  Operations keep it so, since each
puts something only where a way leads, and a way leads from folder to folder.

A directory that does not exist then holds nothing, unless its way is broken: a way like
`a/../cache` leads nowhere while `a` is missing, and once `a` is made it leads to all that `cache`
has held before.  No such thing can happen to a directory that exists or has no folder in its place
(`Directory.IsReachable`), and not at all on a way that does not go up
(`Directory.isReachable_of_notMem`).

* `find?_makeFolders`: making folders puts folders where nothing is, and changes nothing else.
* `isOrderly_makeFolders`, `isOrderly_insert`, `isOrderly_erase`, `isOrderly_eraseFiles`: what keeps
  a tree orderly.
* `locate_unique`: a way leads to one place, if it leads anywhere.
* `Directory.find?_of_path?_eq_none`: a directory that does not exist holds nothing.
-/

namespace TransitChanges.Cache

namespace FileTree

variable {tree tree' : FileTree} {here there p working : Path} {parts way : List String}

/-! ## Making folders -/

/-- Where nothing stands, nothing or a folder stands after folders are made. -/
theorem find?_makeFrom_of_none (h : tree.find? p = none) :
    (tree.makeFrom here parts).find? p = none ∨
      (tree.makeFrom here parts).find? p = some .folder := by
  induction parts generalizing tree here with
  | nil => exact .inl h
  | cons part parts ih =>
    unfold makeFrom
    split
    · exact .inl h
    · next there _ =>
      split
      · by_cases hp : p = there
        · refine .inr (find?_makeFrom ?_)
          rw [find?_insert, if_pos hp]
        · refine ih ?_
          rw [find?_insert, if_neg hp, h]
      · exact ih h
      · exact .inl h

/-- **Making folders puts folders where nothing is, and changes nothing else.** -/
theorem find?_makeFolders (tree : FileTree) (working : Path) (way : List String) (p : Path) :
    (tree.makeFolders working way).find? p = tree.find? p ∨
      tree.find? p = none ∧ (tree.makeFolders working way).find? p = some .folder := by
  unfold makeFolders
  split
  · exact .inl rfl
  · cases hp : tree.find? p with
    | some entry => exact .inl (find?_makeFrom hp)
    | none => exact (find?_makeFrom_of_none hp).imp_right fun hfolder => ⟨rfl, hfolder⟩

/-! ## Folders that stay, and new ones -/

theorem find?_insert_of_folder {q : Path} (hfile : tree.find? p ≠ some .folder) (entry : Entry)
    (hq : tree.find? q = some .folder) : (tree.insert p entry).find? q = some .folder := by
  rw [find?_insert, if_neg ?_, hq]
  rintro rfl
  exact hfile hq

theorem find?_erase_of_folder {q : Path} (hfile : tree.find? p ≠ some .folder)
    (hq : tree.find? q = some .folder) : (tree.erase p).find? q = some .folder := by
  rw [find?_erase, if_neg ?_, hq]
  rintro rfl
  exact hfile hq

/-- No folder is taken away with the files of a folder. -/
theorem find?_eraseFiles_of_folder (folder : Path) (asked : String → Bool)
    (h : tree.find? p = some .folder) :
    (tree.eraseFiles folder asked).find? p = some .folder := by
  rw [find?_eraseFiles, if_neg ?_, h]
  rintro ⟨-, -, hfile⟩
  rw [isFile, h] at hfile
  cases hfile

/-- Writing a file makes no folder. -/
theorem folder_of_insert {q : Path} {content : String}
    (h : (tree.insert p (.text content)).find? q = some .folder) :
    tree.find? q = some .folder := by
  rw [find?_insert] at h
  split at h
  · cases h
  · exact h

/-- Removing something makes no folder. -/
theorem folder_of_erase {q : Path} (h : (tree.erase p).find? q = some .folder) :
    tree.find? q = some .folder := by
  rw [find?_erase] at h
  split at h
  · cases h
  · exact h

theorem folder_of_eraseFiles {folder : Path} {asked : String → Bool}
    (h : (tree.eraseFiles folder asked).find? p = some .folder) :
    tree.find? p = some .folder := by
  rw [find?_eraseFiles] at h
  split at h
  · cases h
  · exact h

/-! ## Orderly trees -/

/-- Every entry but the root stands in a folder. -/
def IsOrderly (tree : FileTree) : Prop :=
  ∀ p entry, tree.find? p = some entry → p = [] ∨ tree.find? p.dropLast = some .folder

/-- A path is the root or in a folder. -/
def HasParent (tree : FileTree) (p : Path) : Prop :=
  p = [] ∨ tree.find? p.dropLast = some .folder

/-- A step leads to a place in a folder. -/
theorem hasParent_of_step (ho : tree.IsOrderly) {part : String}
    (h : tree.step here part = .ok there) : tree.HasParent there := by
  have hhere := find?_of_step h
  have hparent : tree.HasParent here := ho here .folder hhere
  unfold step at h
  rw [hhere] at h
  dsimp only at h
  split at h
  · cases h
    exact hparent
  · split at h
    · cases h
      rcases hparent with rfl | hup
      · exact .inl rfl
      · exact ho _ .folder hup
    · split at h
      · cases h
        refine .inr ?_
        rw [List.dropLast_concat]
        exact hhere
      · cases h

/-- A way leads to a place in a folder. -/
theorem hasParent_of_walk (ho : tree.IsOrderly) (hhere : tree.HasParent here)
    (h : tree.walk here parts = .ok there) : tree.HasParent there := by
  induction parts generalizing here with
  | nil =>
    cases h
    exact hhere
  | cons part parts ih =>
    rw [walk, List.foldlM_cons] at h
    cases hstep : tree.step here part with
    | error e =>
      rw [hstep] at h
      cases h
    | ok next =>
      rw [hstep] at h
      exact ih (hasParent_of_step ho hstep) h

/-- A way leads to a place in a folder, since its first part needs a folder to start from. -/
theorem hasParent_of_locate (ho : tree.IsOrderly) (hway : way ≠ [])
    (h : tree.locate working way = .ok p) : tree.HasParent p := by
  obtain ⟨-, -, hwalk⟩ := locate_eq_ok_iff.mp h
  obtain ⟨part, parts, rfl⟩ := List.exists_cons_of_ne_nil hway
  have hstart : tree.find? (origin working (part :: parts)) = some .folder := by
    rw [walk, List.foldlM_cons] at hwalk
    cases hstep : tree.step (origin working (part :: parts)) part with
    | error e =>
      rw [hstep] at hwalk
      cases hwalk
    | ok next => exact find?_of_step hstep
  exact hasParent_of_walk ho (ho _ .folder hstart) hwalk

/-- A tree stays orderly if no folder is taken away and nothing is put where there is no folder. -/
theorem IsOrderly.mono (ho : tree.IsOrderly)
    (hfolders : ∀ q, tree.find? q = some .folder → tree'.find? q = some .folder)
    (hnew : ∀ q entry, tree'.find? q = some entry →
      (∃ before, tree.find? q = some before) ∨ tree.HasParent q) : tree'.IsOrderly := by
  intro q entry hq
  have hparent : tree.HasParent q := by
    rcases hnew q entry hq with ⟨before, hbefore⟩ | hparent
    · exact ho q before hbefore
    · exact hparent
  exact hparent.imp_right (hfolders q.dropLast)

theorem isOrderly_insert (ho : tree.IsOrderly) (hparent : tree.HasParent p)
    (hfile : tree.find? p ≠ some .folder) (entry : Entry) : (tree.insert p entry).IsOrderly := by
  refine ho.mono (fun q => find?_insert_of_folder hfile entry) fun q e hq => ?_
  rw [find?_insert] at hq
  split at hq
  · next heq => exact .inr (heq ▸ hparent)
  · exact .inl ⟨e, hq⟩

theorem isOrderly_erase (ho : tree.IsOrderly) (hfile : tree.find? p ≠ some .folder) :
    (tree.erase p).IsOrderly := by
  refine ho.mono (fun q => find?_erase_of_folder hfile) fun q e hq => ?_
  rw [find?_erase] at hq
  split at hq
  · cases hq
  · exact .inl ⟨e, hq⟩

theorem isOrderly_eraseFiles (ho : tree.IsOrderly) (folder : Path) (asked : String → Bool) :
    (tree.eraseFiles folder asked).IsOrderly := by
  refine ho.mono (fun q => find?_eraseFiles_of_folder folder asked) fun q e hq => ?_
  rw [find?_eraseFiles] at hq
  split at hq
  · cases hq
  · exact .inl ⟨e, hq⟩

theorem isOrderly_makeFrom (ho : tree.IsOrderly) : (tree.makeFrom here parts).IsOrderly := by
  induction parts generalizing tree here with
  | nil => exact ho
  | cons part parts ih =>
    unfold makeFrom
    split
    · exact ho
    · next there hstep =>
      split
      · next hnone =>
        refine ih (isOrderly_insert ho (hasParent_of_step ho hstep) ?_ .folder)
        rw [hnone]
        exact (Option.some_ne_none _).symm
      · exact ih ho
      · exact ho

theorem isOrderly_makeFolders (ho : tree.IsOrderly) (working : Path) (way : List String) :
    (tree.makeFolders working way).IsOrderly := by
  unfold makeFolders
  split
  · exact ho
  · exact isOrderly_makeFrom ho

/-! ## Ways that do not go up -/

/-- In an orderly tree whatever has a name stands in a folder. -/
theorem IsOrderly.find?_parent (ho : tree.IsOrderly) {name : String} {entry : Entry}
    (h : tree.find? (p ++ [name]) = some entry) : tree.find? p = some .folder := by
  rcases ho _ _ h with hnil | hparent
  · cases List.append_ne_nil_of_right_ne_nil p (List.cons_ne_nil name []) hnil
  · rw [List.dropLast_concat] at hparent
    exact hparent

/-- In an orderly tree everything above a folder is a folder. -/
theorem IsOrderly.find?_of_above (ho : tree.IsOrderly) (h : tree.find? there = some .folder)
    (habove : here <+: there) : tree.find? here = some .folder := by
  induction there using List.reverseRecOn with
  | nil =>
    rw [List.prefix_nil.mp habove]
    exact h
  | append_singleton there name ih =>
    rcases List.prefix_concat_iff.mp habove with rfl | habove
    · exact h
    · exact ih (ho.find?_parent h) habove

/-- A step that does not go up leads to the same place or below it. -/
theorem prefix_of_step {part : String} (hup : part ≠ "..") (h : tree.step here part = .ok there) :
    here <+: there := by
  unfold step at h
  rw [find?_of_step h] at h
  dsimp only at h
  split at h
  · cases h
    exact List.prefix_refl _
  · split at h
    · cases h
      exact List.prefix_append _ _
    · cases h

theorem prefix_of_walk (hup : ".." ∉ parts) (h : tree.walk here parts = .ok there) :
    here <+: there := by
  induction parts generalizing here with
  | nil =>
    cases h
    exact List.prefix_refl _
  | cons part parts ih =>
    rw [List.mem_cons, not_or] at hup
    rw [walk, List.foldlM_cons] at h
    cases hstep : tree.step here part with
    | error e =>
      rw [hstep] at h
      cases h
    | ok next =>
      rw [hstep] at h
      exact (prefix_of_step (Ne.symm hup.1) hstep).trans (ih hup.2 h)

/-- A way that does not go up leads to a folder as soon as the folder is there. -/
theorem walk_of_folder (ho : tree.IsOrderly) (hup : ".." ∉ parts)
    (h : tree'.walk here parts = .ok there) (hthere : tree.find? there = some .folder) :
    tree.walk here parts = .ok there := by
  induction parts generalizing here with
  | nil => exact h
  | cons part parts ih =>
    have habove := prefix_of_walk hup h
    rw [List.mem_cons, not_or] at hup
    rw [walk, List.foldlM_cons] at h ⊢
    cases hstep : tree'.step here part with
    | error e =>
      rw [hstep] at h
      cases h
    | ok next =>
      rw [hstep] at h
      have hhere := ho.find?_of_above hthere habove
      rw [step_eq_of_folder hhere (find?_of_step hstep), hstep]
      exact ih hup.2 h

/-! ## Ways in different trees -/

theorem step_unique {part : String} {a b : Path} (h : tree.step here part = .ok a)
    (h' : tree'.step here part = .ok b) : a = b := by
  rw [step_eq_of_folder (find?_of_step h) (find?_of_step h')] at h
  exact Except.ok.inj (h.symm.trans h')

theorem walk_unique {a b : Path} (h : tree.walk here parts = .ok a)
    (h' : tree'.walk here parts = .ok b) : a = b := by
  induction parts generalizing here with
  | nil =>
    cases h
    cases h'
    rfl
  | cons part parts ih =>
    rw [walk, List.foldlM_cons] at h h'
    cases hstep : tree.step here part with
    | error e =>
      rw [hstep] at h
      cases h
    | ok next =>
      cases hstep' : tree'.step here part with
      | error e =>
        rw [hstep'] at h'
        cases h'
      | ok next' =>
        rw [hstep] at h
        rw [hstep', ← step_unique hstep hstep'] at h'
        exact ih h h'

/-- **A way leads to one place**, in whatever trees it can be walked. -/
theorem locate_unique {a b : Path} (h : tree.locate working way = .ok a)
    (h' : tree'.locate working way = .ok b) : a = b :=
  walk_unique (locate_eq_ok_iff.mp h).2.2 (locate_eq_ok_iff.mp h').2.2

end FileTree

namespace Directory

variable {d d' : Directory} {folder : Path} {name : String}

/-- The files of a directory are at one place, in whatever trees its name leads somewhere. -/
theorem site_unique {a b : Path} (hplace : d'.toPlace = d.toPlace) (h : d.site = .ok a)
    (h' : d'.site = .ok b) : a = b := by
  unfold site find at h h'
  rw [hplace] at h'
  split at h
  · next hname =>
    rw [if_pos hname] at h'
    exact FileTree.locate_unique h h'
  · next hname =>
    rw [if_neg hname] at h'
    exact Except.ok.inj (h.symm.trans h')

/-- The directory exists, or no folder stands where its name would lead. -/
def IsReachable (d : Directory) : Prop :=
  (∃ folder, d.path? = some folder) ∨ (d.tree.IsOrderly ∧
    ∀ (tree : FileTree) (p : Path), { d with tree }.site = .ok p → d.tree.find? p ≠ some .folder)

/-- A name that does not go up leads to the folder in its place. -/
theorem isReachable_of_notMem (ho : d.tree.IsOrderly) (hup : ".." ∉ d.parts) : d.IsReachable := by
  cases hpath : d.path? with
  | some folder => exact .inl ⟨folder, hpath⟩
  | none =>
    refine .inr ⟨ho, fun tree p hsite hfolder => ?_⟩
    have hthere : d.site = .ok p := by
      by_cases hname : d.IsNamed
      · rw [site_of_isNamed hname]
        rw [site_of_isNamed (d := { d with tree }) hname] at hsite
        obtain ⟨hway, hrefuses, hwalk⟩ := FileTree.locate_eq_ok_iff.mp hsite
        exact FileTree.locate_eq_ok_iff.mpr
          ⟨hway, hrefuses, FileTree.walk_of_folder ho hup hwalk hfolder⟩
      · rw [site_of_not_isNamed hname]
        rwa [site_of_not_isNamed (d := { d with tree }) hname] at hsite
    cases hpath.symm.trans (path?_eq_some_iff.mpr ⟨hthere, hfolder⟩)

/-- **A directory that does not exist holds nothing**, where it will be made. -/
theorem find?_of_path?_eq_none (hreach : d.IsReachable) (hnone : d.path? = none)
    (hplace : d'.toPlace = d.toPlace) (hfolder : d'.path? = some folder) :
    d.tree.find? (folder ++ [name]) = none := by
  rcases hreach with ⟨there, hthere⟩ | ⟨ho, hsite⟩
  · cases hnone.symm.trans hthere
  · refine Option.eq_none_iff_forall_ne_some.mpr fun entry hentry => ?_
    have hd' : d' = { d with tree := d'.tree } := by rw [← hplace]
    obtain ⟨hsite', -⟩ := path?_eq_some_iff.mp hfolder
    rw [hd'] at hsite'
    exact hsite _ _ hsite' (ho.find?_parent hentry)

end Directory
end TransitChanges.Cache
