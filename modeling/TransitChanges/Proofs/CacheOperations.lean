import TransitChanges.Cache.Store
import TransitChanges.Proofs.CacheDirectory
import TransitChanges.Proofs.StoredRecords

/-!
# What operations do to the cache

The operations of the cache are read off one after the other (`run_bind`).  Loading tells the
records of a file and changes nothing (`run_load?`).  Storing records writes their document in place
of what the file held, and where that fails only the directory is made (`run_save_cases`).

* `Directory.Wrote.stored?_self`: what was stored is loaded again.
* `run_refresh_cases`: a cache of the version is left alone, and any other is cleared.
-/

namespace TransitChanges.Cache

namespace Directory

variable {d d' : Directory} {file : String}

/-! ## Loading -/

/-- The records that a file holds, if it can be loaded. -/
def stored? (α : Type) [Stored α] (d : Directory) (file : String) : Option (List α) :=
  (d.read? file).bind (Stored.recordsIn? α)

/-- The version that the cache is recorded to be of. -/
def recorded? (d : Directory) : Option String :=
  (d.stored? String versionFile).bind List.head?

variable {α : Type} [Stored α]

theorem stored?_congr (h : d'.entry? file = d.entry? file) :
    d'.stored? α file = d.stored? α file := by
  rw [stored?, stored?, read?, read?, h]

theorem stored?_of_none (h : d.entry? file = none) : d.stored? α file = none := by
  rw [stored?, read?, h]
  rfl

theorem entry?_ne_folder_of_stored? {records : List α} (h : d.stored? α file = some records) :
    d.entry? file ≠ some .folder := by
  intro hfolder
  rw [stored?, read?, hfolder] at h
  cases h

theorem Wrote.stored?_self {now : Nat} {records : List α} (hnow : now < UInt64.size)
    (hrecords : ∀ r ∈ records, Stored.ReadsBack r)
    (h : d.Wrote file (document now records).render d') : d'.stored? α file = some records := by
  rw [stored?, read?, h.entry?_self]
  exact Stored.recordsIn?_document hnow hrecords

end Directory

/-! ## Operations -/

variable {α : Type} [Stored α] {d d' : Directory} {now : Nat} {file : String} {records : List α}

/-- Two operations one after the other. -/
theorem run_bind {α β : Type} (x : CacheM α) (f : α → CacheM β) (d : Directory) :
    (x >>= f).run d =
      match x.run d with
      | (.ok a, d') => (f a).run d'
      | (.error fault, d') => (.error fault, d') := by
  have hrun : (x >>= f).run d = ExceptT.bindCont f (x.run d).1 (x.run d).2 := rfl
  rw [hrun]
  cases x.run d with
  | mk result d' => cases result <;> rfl

theorem run_pure {α : Type} (a : α) (d : Directory) : (pure a : CacheM α).run d = (.ok a, d) := rfl

/-- An operation that cannot fail. -/
theorem run_lift {α : Type} (x : StateM Directory α) (d : Directory) :
    (liftM x : CacheM α).run d = (.ok (x.run d).1, (x.run d).2) := rfl

theorem run_change (fault : CacheFault) (f : Directory → Option Directory) (d : Directory) :
    (change fault f).run d =
      match f d with
      | some d' => (.ok (), d')
      | none => (.error (.cache fault), d) := by
  have hrun : (change fault f).run d = ExceptT.run (match f d with
      | some d => (set d : CacheM Unit)
      | none => throw (.cache fault)) d := rfl
  rw [hrun]
  cases f d <;> rfl

theorem run_load (d : Directory) (file : String) : (load file).run d =
    match d.read? file with
    | none => (.error (.cache (.inaccessible file)), d)
    | some content =>
      match Stored.recordsIn? α content with
      | some records => (.ok records, d)
      | none => (.error (.cache (.undecodable file)), d) := by
  have hrun : (load file : CacheM (List α)).run d = ExceptT.run (match d.read? file with
      | none => (throw (.cache (.inaccessible file)) : CacheM (List α))
      | some content =>
        match Stored.recordsIn? α content with
        | some records => return records
        | none => throw (.cache (.undecodable file))) d := rfl
  rw [hrun]
  cases d.read? file with
  | none => rfl
  | some content => dsimp only; cases Stored.recordsIn? α content <;> rfl

/-- Two operations on the directory one after the other. -/
theorem run_andThen {β γ : Type} (x : StateM Directory β) (f : β → StateM Directory γ)
    (d : Directory) : (x >>= f).run d = (f (x.run d).1).run (x.run d).2 := rfl

theorem run_load?_eq (d : Directory) (file : String) :
    (load? file : StateM Directory (Option (List α))).run d =
      if d.isFile file then
        match (load file : CacheM (List α)).run d with
        | (.ok records, d') => (some records, d')
        | (.error _, d') => (none, d')
      else (none, d) := by
  have hhas : (has file).run d = (d.isFile file, d) := rfl
  have hload : StateT.run (ExceptT.run (load file : CacheM (List α))) d = (load file).run d := rfl
  rw [load?, run_andThen, hhas]
  dsimp only
  split
  · rw [run_andThen, hload]
    cases (load file : CacheM (List α)).run d with
    | mk result d' => cases result <;> rfl
  · rfl

theorem run_load? (d : Directory) (file : String) :
    (load? file : StateM Directory (Option (List α))).run d = (d.stored? α file, d) := by
  rw [run_load?_eq]
  unfold Directory.isFile Directory.stored? Directory.read?
  cases hentry : d.entry? file with
  | none => rfl
  | some entry =>
    cases entry with
    | folder => rfl
    | bytes content =>
      have hfile : (some (Entry.bytes content)).any Entry.isFile = true := rfl
      rw [if_pos hfile, run_load, Directory.read?, hentry]
      rfl
    | text content =>
      have hfile : (some (Entry.text content)).any Entry.isFile = true := rfl
      rw [if_pos hfile, run_load, Directory.read?, hentry]
      dsimp only
      rw [Option.bind_some]
      cases Stored.recordsIn? α content <;> rfl

theorem run_clear (d : Directory) : clear.run d =
    match d.clear? with
    | some d' => (.ok (), d')
    | none => (.error (.cache .directoryInaccessible), d) :=
  run_change _ _ d

/-- Storing fails if the directory has a name and cannot be made. -/
theorem run_save (d : Directory) (file : String) (records : List α) :
    (save now file records).run d =
      if d.IsNamed ∧ d.make.isTaken = false then
        (.error (.cache (.inaccessible file)), d.make)
      else (change (.inaccessible file) fun d =>
        d.write? file (document now records).render).run d.make := by
  have hget (d : Directory) : (get : CacheM Directory).run d = (.ok d, d) := rfl
  have hmake : (modify Directory.make : CacheM Unit).run d = (.ok (), d.make) := rfl
  unfold save
  rw [run_bind, hget]
  dsimp only
  by_cases hname : d.IsNamed
  · rw [if_pos hname, run_bind, hmake]
    dsimp only
    rw [run_bind, hget]
    dsimp only
    cases htaken : d.make.isTaken with
    | false =>
      rw [if_pos (show d.IsNamed ∧ false = false from ⟨hname, rfl⟩)]
      rfl
    | true => simp
  · rw [if_neg hname, if_neg fun h => hname h.1, Directory.make_of_not_isNamed hname]

/-- Records are stored, or the directory is made and nothing else changes. -/
theorem run_save_cases (now : Nat) (hn : Directory.IsPlain file) (d : Directory)
    (records : List α) :
    (∃ d', (save now file records).run d = (.ok (), d') ∧
      d.make.Wrote file (document now records).render d') ∨
    ∃ fault, (save now file records).run d = (.error fault, d.make) := by
  rw [run_save, run_change]
  split
  · exact .inr ⟨_, rfl⟩
  · cases hwrite : d.make.write? file (document now records).render with
    | none => exact .inr ⟨_, rfl⟩
    | some d' => exact .inl ⟨d', rfl, Directory.wrote_of_write? hn hwrite⟩

/-- A directory that exists is there under its name, if it has one. -/
theorem isTaken_of_path? {folder : Path} (hname : d.IsNamed) (hfolder : d.path? = some folder) :
    d.isTaken = true := by
  obtain ⟨hsite, hthere⟩ := Directory.path?_eq_some_iff.mp hfolder
  rw [Directory.site_of_isNamed hname] at hsite
  rw [Directory.isTaken, hsite]
  dsimp only
  rw [hthere]
  rfl

/-- Records are stored in a directory that exists. -/
theorem exists_run_save (now : Nat) (hn : Directory.IsPlain file) {folder : Path}
    (hfolder : d.path? = some folder) (hbars : ¬ Directory.Bars d.parts file)
    (hfile : d.entry? file ≠ some .folder) (records : List α) :
    ∃ d', (save now file records).run d = (.ok (), d') ∧
      d.Wrote file (document now records).render d' := by
  have htaken : ¬ (d.IsNamed ∧ d.isTaken = false) := fun ⟨hname, htaken⟩ => by
    rw [isTaken_of_path? hname hfolder] at htaken
    cases htaken
  obtain ⟨d', hwrite⟩ :=
    Directory.exists_write? hn hfolder hbars hfile (document now records).render
  rw [run_save, Directory.make_of_path? hfolder, if_neg htaken, run_change, hwrite]
  exact ⟨d', rfl, Directory.wrote_of_write? hn hwrite⟩

/-- No records are stored where the way is refused. -/
theorem run_save_of_bars (now : Nat) (hn : Directory.IsPlain file)
    (hbars : Directory.Bars d.parts file) (records : List α) :
    ∃ fault, (save now file records).run d = (.error fault, d.make) := by
  rw [run_save, run_change, Directory.write?_of_bars (d := d.make) hn hbars]
  split <;> exact ⟨_, rfl⟩

theorem run_refresh (d : Directory) (now : Nat) (version : String) :
    (refresh now version).run d =
      if d.recorded? = some version then (.ok false, d)
      else
        match clear.run d with
        | (.error fault, d) => (.error fault, d)
        | (.ok _, d) =>
          match (save now versionFile [version]).run d with
          | (.error fault, d) => (.error fault, d)
          | (.ok _, d) => (.ok true, d) := by
  rw [refresh, run_bind, run_lift, run_load?, Directory.recorded?]
  dsimp only
  split
  · rfl
  · rw [run_bind]
    cases clear.run d with
    | mk result d =>
      cases result with
      | error fault => rfl
      | ok _ =>
        dsimp only
        rw [run_bind]
        cases (save now versionFile [version]).run d with
        | mk result d => cases result <;> rfl

/-- A cache of the version is left alone.  Any other is cleared, and the version is recorded, as far
as that can be done. -/
theorem run_refresh_cases (d : Directory) (now : Nat) (version : String) :
    (d.recorded? = some version ∧ (refresh now version).run d = (.ok false, d)) ∨
    (∃ fault d', (refresh now version).run d = (.error fault, d') ∧
      (d' = d ∨ ∃ cleared, d.clear? = some cleared ∧ d' = cleared.make)) ∨
    ∃ cleared d', (refresh now version).run d = (.ok true, d') ∧ d.clear? = some cleared ∧
      cleared.make.Wrote versionFile (document now [version]).render d' := by
  rw [run_refresh, run_clear]
  split
  · next hrecorded => exact .inl ⟨hrecorded, rfl⟩
  · cases hclear : d.clear? with
    | none => exact .inr (.inl ⟨_, d, rfl, .inl rfl⟩)
    | some cleared =>
      dsimp only
      have hplain : Directory.IsPlain versionFile := by decide
      rcases run_save_cases now hplain cleared [version] with
        ⟨d', hsave, hwrote⟩ | ⟨fault, hsave⟩
      · rw [hsave]
        exact .inr (.inr ⟨cleared, d', rfl, rfl, hwrote⟩)
      · rw [hsave]
        exact .inr (.inl ⟨fault, cleared.make, rfl, .inr ⟨cleared, rfl, rfl⟩⟩)

/-- Nothing stands in the way of refreshing a directory that exists, unless the way to the version is
refused or a folder stands at its end. -/
theorem exists_run_refresh_of_path? {folder : Path} {version : String}
    (hpath : d.path? = some folder) (hbars : ¬ Directory.Bars d.parts versionFile)
    (hfile : d.entry? versionFile ≠ some .folder) (now : Nat)
    (hrecorded : d.recorded? ≠ some version) :
    ∃ cleared d', (refresh now version).run d = (.ok true, d') ∧ d.clear? = some cleared ∧
      cleared.path? = some folder ∧
      cleared.Wrote versionFile (document now [version]).render d' := by
  obtain ⟨cleared, hclear⟩ := Directory.exists_clear? hpath
  have hpath' := Directory.path?_of_clear? hclear hpath
  have hbars' : ¬ Directory.Bars cleared.parts versionFile := by
    rwa [Directory.toPlace_of_clear? hclear]
  have hfile' : cleared.entry? versionFile ≠ some .folder := fun hentry =>
    hfile (Directory.entry?_of_clear? hclear (by decide) hentry).1
  obtain ⟨d', hsave, hwrote⟩ := exists_run_save now (by decide) hpath' hbars' hfile' [version]
  refine ⟨cleared, d', ?_, hclear, hpath', hwrote⟩
  rw [run_refresh, if_neg hrecorded, run_clear, hclear]
  dsimp only
  rw [hsave]

end TransitChanges.Cache
