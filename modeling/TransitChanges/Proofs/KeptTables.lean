import TransitChanges.Proofs.CacheOperations
import TransitChanges.Connections
import TransitChanges.Service

/-!
# What the cache holds

The files of the cache are written one after the other, and by different sessions: the version when
a session starts, the tables when one stops.  Here it is said what they hold together.  Either none
of the files with tables is there, or they hold the tables of one timetable (`Directory.Holds`), all
of them as far as their names are not refused, since all that can keep a table from being written is
a way that is too long.

Which timetable that may be under a version is left open: `own feed version` says so.  Where
sessions follow one another, these are the timetables of that version; where they overlap, they may
be others.

* `Directory.IsOf.clear?`: clearing takes all of it away, if the directory has a name.
* `Directory.IsVacant.refresh`, `Directory.IsOf.refresh`: refreshing the cache for a version.
-/

namespace TransitChanges.Cache

/-- The files of the cache. -/
def files : List String :=
  [versionFile, IndexRecord.file, DegreeRecord.file, ViaRecord.file]

theorem isPlain_of_mem_files : ∀ file ∈ files, Directory.IsPlain file := by
  decide

namespace Directory

/-- Once it is made, the directory has none of the files of the cache. -/
def IsVacant (d : Directory) : Prop :=
  ∀ file ∈ files, d.make.entry? file = none

/-- The directory has none of the files with tables. -/
structure HoldsNone (d : Directory) : Prop where
  indexes : d.entry? IndexRecord.file = none
  rows : d.entry? DegreeRecord.file = none
  vias : d.entry? ViaRecord.file = none

/-- The files hold the records of the tables.  They come one after the other, up to the first whose
name is refused. -/
structure Holds (d : Directory) (t : Connections) : Prop where
  indexes : d.stored? IndexRecord IndexRecord.file = some t.numbering.records
  rest : (Bars d.parts DegreeRecord.file ∧ d.entry? ViaRecord.file = none) ∨
    (d.stored? DegreeRecord DegreeRecord.file = some t.degrees.records ∧
      (Bars d.parts ViaRecord.file ∨ d.stored? ViaRecord ViaRecord.file = some t.vias.records))

/-- The directory exists and is recorded to be of a version. -/
structure IsMarked (d : Directory) (version : String) : Prop where
  exists_path? : ∃ folder, d.path? = some folder
  recorded : d.stored? String versionFile = some [version]

/-- The directory is recorded to be of a version, and its files hold the tables of a timetable that
may stand under it, or none. -/
structure IsOf (d : Directory) (own : Feed → String → Prop) (version : String) : Prop
    extends d.IsMarked version where
  tables : d.HoldsNone ∨ ∃ feed, own feed version ∧
    ∃ t, Connections.build feed.source feed.interchanges = .ok t ∧ d.Holds t

/-- The directory is of some version, or it holds nothing. -/
def IsSound (d : Directory) (own : Feed → String → Prop) : Prop :=
  d.IsVacant ∨ ∃ version, d.IsOf own version

variable {d d' cleared : Directory} {own : Feed → String → Prop} {version file : String} {now : Nat}

/-! ## Nothing -/

theorem entry?_eq_none_of_make (hn : IsPlain file) (h : d.make.entry? file = none) :
    d.entry? file = none := by
  cases hpath : d.path? with
  | none => exact entry?_of_path?_eq_none hn hpath
  | some folder => rwa [make_of_path? hpath] at h

namespace IsVacant

theorem entry?_eq_none (h : d.IsVacant) (hfile : file ∈ files) : d.entry? file = none :=
  entry?_eq_none_of_make (isPlain_of_mem_files file hfile) (h file hfile)

theorem make (h : d.IsVacant) : d.make.IsVacant := by
  intro file hfile
  rw [make_make]
  exact h file hfile

theorem recorded?_eq_none (h : d.IsVacant) : d.recorded? = none := by
  rw [recorded?, stored?_of_none (h.entry?_eq_none (by decide))]
  rfl

theorem holdsNone (h : d.IsVacant) : d.HoldsNone :=
  ⟨h.entry?_eq_none (by decide), h.entry?_eq_none (by decide), h.entry?_eq_none (by decide)⟩

end IsVacant

/-- A directory that exists and has none of the files. -/
theorem isVacant_of_path? {folder : Path} (hpath : d.path? = some folder)
    (h : ∀ file ∈ files, d.entry? file = none) : d.IsVacant := by
  intro file hfile
  rw [make_of_path? hpath]
  exact h file hfile

theorem isVacant_empty : (ofEntries []).IsVacant := by
  have hpath : (ofEntries []).path? = some [] := rfl
  refine isVacant_of_path? hpath ?_
  decide

/-! ## Something -/

theorem IsMarked.wrote {content : String} (h : d.IsMarked version)
    (hwrote : d.Wrote file content d') (hne : file ≠ versionFile) : d'.IsMarked version where
  exists_path? := hwrote.exists_path?.imp fun _ hpath => hpath.2
  recorded := by
    rw [stored?_congr (hwrote.entry?_of_ne _ (by decide) hne.symm)]
    exact h.recorded

theorem IsMarked.recorded?_eq (h : d.IsMarked version) : d.recorded? = some version := by
  rw [recorded?, h.recorded]
  rfl

/-- In a directory of some version a table is stored, and nothing else changes, unless the way to
its file is refused. -/
theorem IsMarked.save {α : Type} [Stored α] (h : d.IsMarked version) (hnow : now < UInt64.size)
    (hn : IsPlain file) (hne : file ≠ versionFile) (hfile : d.entry? file ≠ some .folder)
    {records : List α} (hrecords : ∀ r ∈ records, Stored.ReadsBack r) :
    (Bars d.parts file ∧ ∃ fault, (save now file records).run d = (.error fault, d)) ∨
    ∃ d', (save now file records).run d = (.ok (), d') ∧ d'.toPlace = d.toPlace ∧
      d'.IsMarked version ∧ d'.stored? α file = some records ∧
      ∀ other, IsPlain other → other ≠ file → d'.entry? other = d.entry? other := by
  obtain ⟨folder, hpath⟩ := h.exists_path?
  by_cases hbars : Bars d.parts file
  · obtain ⟨fault, hrun⟩ := run_save_of_bars now hn hbars records
    rw [make_of_path? hpath] at hrun
    exact .inl ⟨hbars, fault, hrun⟩
  · obtain ⟨d', hrun, hwrote⟩ := exists_run_save now hn hpath hbars hfile records
    exact .inr ⟨d', hrun, hwrote.toPlace_eq, h.wrote hwrote hne, hwrote.stored?_self hnow hrecords,
      hwrote.entry?_of_ne⟩

theorem ne_folder_of_eq_none (h : d.entry? file = none) : d.entry? file ≠ some .folder := by
  rw [h]
  rintro ⟨⟩

theorem HoldsNone.ne_folder (h : d.HoldsNone) (hfile : file ∈ files) (hne : file ≠ versionFile) :
    d.entry? file ≠ some .folder := by
  simp only [files, List.mem_cons, List.not_mem_nil, or_false] at hfile
  rcases hfile with rfl | rfl | rfl | rfl
  · exact absurd rfl hne
  · exact ne_folder_of_eq_none h.indexes
  · exact ne_folder_of_eq_none h.rows
  · exact ne_folder_of_eq_none h.vias

theorem Holds.ne_folder {t : Connections} (h : d.Holds t) (hfile : file ∈ files)
    (hne : file ≠ versionFile) : d.entry? file ≠ some .folder := by
  simp only [files, List.mem_cons, List.not_mem_nil, or_false] at hfile
  rcases hfile with rfl | rfl | rfl | rfl
  · exact absurd rfl hne
  · exact entry?_ne_folder_of_stored? h.indexes
  · rcases h.rest with ⟨hbars, -⟩ | ⟨hrows, -⟩
    · exact ne_folder_of_eq_none (entry?_of_bars (by decide) hbars)
    · exact entry?_ne_folder_of_stored? hrows
  · rcases h.rest with ⟨-, hvias⟩ | ⟨-, hbars | hvias⟩
    · exact ne_folder_of_eq_none hvias
    · exact ne_folder_of_eq_none (entry?_of_bars (by decide) hbars)
    · exact entry?_ne_folder_of_stored? hvias

theorem IsOf.ne_folder (h : d.IsOf own version) (hfile : file ∈ files) :
    d.entry? file ≠ some .folder := by
  by_cases hne : file = versionFile
  · subst hne
    exact entry?_ne_folder_of_stored? h.recorded
  · rcases h.tables with hnone | ⟨_, -, t, -, hholds⟩
    · exact hnone.ne_folder hfile hne
    · exact hholds.ne_folder hfile hne

/-- Where the way to the rows is refused there are no later tables either. -/
theorem IsOf.vias_eq_none_of_bars (h : d.IsOf own version)
    (hbars : Bars d.parts DegreeRecord.file) : d.entry? ViaRecord.file = none := by
  rcases h.tables with hnone | ⟨_, -, t, -, hholds⟩
  · exact hnone.vias
  · rcases hholds.rest with ⟨-, hvias⟩ | ⟨hrows, -⟩
    · exact hvias
    · rw [stored?_of_none (entry?_of_bars (by decide) hbars)] at hrows
      cases hrows

/-- No file of the cache is a folder. -/
theorem IsSound.ne_folder (h : d.IsSound own) (hfile : file ∈ files) :
    d.entry? file ≠ some .folder := by
  rcases h with h | ⟨version, h⟩
  · exact ne_folder_of_eq_none (h.entry?_eq_none hfile)
  · exact h.ne_folder hfile

/-! ## Refreshing -/

/-- Clearing a vacant directory leaves it vacant. -/
theorem IsVacant.clear? (h : d.IsVacant) (hclear : d.clear? = some cleared) :
    cleared.IsVacant := by
  rcases clear?_eq_some hclear with ⟨folder, -, hfolder, -⟩ | ⟨-, rfl⟩
  · refine isVacant_of_path? (path?_of_clear? hclear hfolder) fun file hfile => ?_
    refine Option.eq_none_iff_forall_ne_some.mpr fun entry hentry => ?_
    obtain ⟨hbefore, -⟩ := entry?_of_clear? hclear (isPlain_of_mem_files file hfile) hentry
    cases (h.entry?_eq_none hfile).symm.trans hbefore
  · exact h

/-- Clearing a directory that has a name leaves nothing of its version. -/
theorem IsOf.clear? (hname : d.IsNamed) (h : d.IsOf own version)
    (hclear : d.clear? = some cleared) : cleared.IsVacant := by
  obtain ⟨folder, hfolder⟩ := h.exists_path?
  refine isVacant_of_path? (path?_of_clear? hclear hfolder) fun file hfile => ?_
  refine Option.eq_none_iff_forall_ne_some.mpr fun entry hentry => ?_
  obtain ⟨hbefore, hfolder⟩ := entry?_of_clear? hclear (isPlain_of_mem_files file hfile) hentry
  rw [hfolder hname] at hbefore
  exact h.ne_folder hfile hbefore

/-- A directory that is marked with a version, and was vacant, is of it and holds no tables. -/
theorem isOf_of_wrote (hnow : now < UInt64.size) (h : d.IsVacant)
    (hwrote : d.make.Wrote versionFile (document now [version]).render d') :
    d'.IsOf own version where
  exists_path? := hwrote.exists_path?.imp fun _ hpath => hpath.2
  recorded := hwrote.stored?_self hnow fun r _ => Stored.readsBack_string r
  tables := by
    have hnone (file : String) (hfile : file ∈ files) (hne : file ≠ versionFile) :
        d'.entry? file = none := by
      rw [hwrote.entry?_of_ne file (isPlain_of_mem_files file hfile) hne]
      exact h file hfile
    exact .inl ⟨hnone _ (by decide) (by decide), hnone _ (by decide) (by decide),
      hnone _ (by decide) (by decide)⟩

theorem HoldsNone.wrote {content : String} (h : d.HoldsNone)
    (hwrote : d.Wrote versionFile content d') : d'.HoldsNone where
  indexes := (hwrote.entry?_of_ne _ (by decide) (by decide)).trans h.indexes
  rows := (hwrote.entry?_of_ne _ (by decide) (by decide)).trans h.rows
  vias := (hwrote.entry?_of_ne _ (by decide) (by decide)).trans h.vias

/-- The tables stay when another version is written. -/
theorem Holds.wrote {t : Connections} {content : String} (h : d.Holds t)
    (hwrote : d.Wrote versionFile content d') : d'.Holds t := by
  have hrows := hwrote.entry?_of_ne DegreeRecord.file (by decide) (by decide)
  have hvias := hwrote.entry?_of_ne ViaRecord.file (by decide) (by decide)
  refine ⟨?_, ?_⟩
  · rw [stored?_congr (hwrote.entry?_of_ne _ (by decide) (by decide))]
    exact h.indexes
  · rw [hwrote.toPlace_eq, hvias, stored?_congr hrows, stored?_congr hvias]
    exact h.rest

/-- **Refreshing a vacant directory** marks it with the version, if that can be done. -/
theorem IsVacant.refresh (hnow : now < UInt64.size) (h : d.IsVacant) (own : Feed → String → Prop)
    (version : String) :
    (∃ fault d', (refresh now version).run d = (.error fault, d') ∧ d'.toPlace = d.toPlace ∧
      d'.IsVacant) ∨
    ∃ cleared d', (refresh now version).run d = (.ok cleared, d') ∧ d'.toPlace = d.toPlace ∧
      d'.IsOf own version := by
  rcases run_refresh_cases d now version with ⟨hrecorded, -⟩ | ⟨fault, d', hrun, hd'⟩ |
    ⟨cleared, d', hrun, hclear, hwrote⟩
  · cases hrecorded.symm.trans h.recorded?_eq_none
  · refine .inl ⟨fault, d', hrun, ?_⟩
    rcases hd' with rfl | ⟨cleared, hclear, rfl⟩
    · exact ⟨rfl, h⟩
    · rw [toPlace_make]
      exact ⟨toPlace_of_clear? hclear, (h.clear? hclear).make⟩
  · have hplace := hwrote.toPlace_eq
    rw [toPlace_make, toPlace_of_clear? hclear] at hplace
    exact .inr ⟨true, d', hrun, hplace,
      isOf_of_wrote hnow (h.clear? hclear) hwrote⟩

/-- Refreshing a vacant directory that exists succeeds, unless the way to the version is refused. -/
theorem IsVacant.refresh_of_path? {folder : Path} (hnow : now < UInt64.size) (h : d.IsVacant)
    (hpath : d.path? = some folder) (hbars : ¬ Bars d.parts versionFile)
    (own : Feed → String → Prop) (version : String) :
    ∃ cleared d', (Cache.refresh now version).run d = (.ok cleared, d') ∧
      d'.toPlace = d.toPlace ∧ d'.IsOf own version := by
  have hrecorded : d.recorded? ≠ some version := by
    rw [h.recorded?_eq_none]
    exact (Option.some_ne_none _).symm
  obtain ⟨cleared, d', hrun, hclear, hpath', hwrote⟩ := exists_run_refresh_of_path? hpath hbars
    (ne_folder_of_eq_none (h.entry?_eq_none (by decide))) now hrecorded
  refine ⟨true, d', hrun, hwrote.toPlace_eq.trans (toPlace_of_clear? hclear),
    isOf_of_wrote hnow (h.clear? hclear) ?_⟩
  rwa [make_of_path? hpath']

/-- The way to the version was not refused when the version was written. -/
theorem IsMarked.not_bars (h : d.IsMarked version) : ¬ Bars d.parts versionFile := fun hbars => by
  have hrecorded := h.recorded
  rw [stored?_of_none (entry?_of_bars (by decide) hbars)] at hrecorded
  cases hrecorded

/-- Refreshing a directory without a name writes another version and does nothing else. -/
theorem IsMarked.refresh_of_not_isNamed {before : String} (hname : ¬ d.IsNamed)
    (hnow : now < UInt64.size) (h : d.IsMarked before) (hversion : before ≠ version) :
    ∃ d', (refresh now version).run d = (.ok true, d') ∧ d'.IsMarked version ∧
      d.Wrote versionFile (document now [version]).render d' := by
  obtain ⟨folder, hfolder⟩ := h.exists_path?
  have hrecorded : d.recorded? ≠ some version := by
    rw [h.recorded?_eq]
    exact fun heq => hversion (Option.some.inj heq)
  obtain ⟨cleared, d', hrun, hclear, -, hwrote⟩ := exists_run_refresh_of_path? hfolder h.not_bars
    (entry?_ne_folder_of_stored? h.recorded) now hrecorded
  rw [clear?_of_not_isNamed hname, Option.some.injEq] at hclear
  subst hclear
  exact ⟨d', hrun, ⟨hwrote.exists_path?.imp fun _ hpath => hpath.2,
    hwrote.stored?_self hnow fun r _ => Stored.readsBack_string r⟩, hwrote⟩

/-- **Refreshing a directory of some version** always succeeds, and it is of the new version.  Where
the directory has no name the tables stay, so those of the old version have to be allowed under the
new one. -/
theorem IsOf.refresh {before : String} (hnow : now < UInt64.size) (h : d.IsOf own before)
    (version : String) (hown : ¬ d.IsNamed → ∀ feed, own feed before → own feed version) :
    ∃ cleared d', (refresh now version).run d = (.ok cleared, d') ∧ d'.toPlace = d.toPlace ∧
      d'.IsOf own version := by
  by_cases hversion : before = version
  · subst hversion
    refine ⟨false, d, ?_, rfl, h⟩
    rw [run_refresh, if_pos h.recorded?_eq]
  · by_cases hname : d.IsNamed
    · obtain ⟨folder, hfolder⟩ := h.exists_path?
      have hrecorded : d.recorded? ≠ some version := by
        rw [h.recorded?_eq]
        exact fun heq => hversion (Option.some.inj heq)
      obtain ⟨cleared, d', hrun, hclear, hpath', hwrote⟩ := exists_run_refresh_of_path? hfolder
        h.not_bars (h.ne_folder (by decide)) now hrecorded
      refine ⟨true, d', hrun, hwrote.toPlace_eq.trans (toPlace_of_clear? hclear),
        isOf_of_wrote hnow (h.clear? hname hclear) ?_⟩
      rwa [make_of_path? hpath']
    · obtain ⟨d', hrun, hmarked, hwrote⟩ :=
        h.toIsMarked.refresh_of_not_isNamed hname hnow hversion
      exact ⟨true, d', hrun, hwrote.toPlace_eq, hmarked,
        h.tables.imp (fun hnone => hnone.wrote hwrote) fun ⟨feed, hfeed, t, ht, hholds⟩ =>
          ⟨feed, hown hname feed hfeed, t, ht, hholds.wrote hwrote⟩⟩

end Directory
end TransitChanges.Cache
