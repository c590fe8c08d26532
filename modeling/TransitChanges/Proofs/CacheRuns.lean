import TransitChanges.Proofs.CacheOperations
import TransitChanges.Proofs.DirectoryChanges

/-!
# Runs of operations on the cache

What a cache holds is told by the operations that were run on it, as long as none of them fails.  An
operation touches the place that its file name leads to, and one that clears the cache touches every
place right below the directory (`Event.Touches`).  So what was last saved at a place is loaded from
it by every name that leads there, and the version that was last recorded decides whether the cache
is cleared again.

* `Runs.changesOnly`: what a run leaves as it was.
* `Runs.load_saved`: records are loaded from where they were last saved.
* `refreshed_of_run`: what refreshing leaves, and what it tells from then on.
* `laws_of_runs`: all that is said about a run.
* `files_shared_or_kept`: what cannot be said of all names and all directories.
-/

namespace TransitChanges.Cache

/-! ## Runs -/

/-- An operation that changes the cache. -/
inductive Operation : Type 1 where
  | save {α : Type} [Stored α] (now : UInt64) (file : String) (records : List α)
  | remove (file : String)
  | clear
  | refresh (now : UInt64) (version : String)

namespace Operation

/-- Run an operation.  Tells whether the cache was cleared. -/
def run : Operation → CacheM Bool
  | save now file records => do
    Cache.save now.toNat file records
    return false
  | remove file => do
    Cache.remove file
    return false
  | clear => do
    Cache.clear
    return true
  | refresh now version => Cache.refresh now.toNat version

/-- The file that an operation is given. -/
def file? : Operation → Option String
  | save _ file _ => some file
  | remove file => some file
  | clear => none
  | refresh _ _ => none

end Operation

/-- An operation that was run, and whether the cache was cleared by it. -/
structure Event : Type 1 where
  operation : Operation
  cleared : Bool

/-- An operation touches the place of its file, or all that is right below the directory if it
clears it. -/
def Event.Touches (e : Event) (d : Directory) (p : Path) : Prop :=
  (∃ file, e.operation.file? = some file ∧ d.locate file = .ok p) ∨
    (e.cleared = true ∧ d.Lists p)

/-- Operations are run one after the other, and none fails. -/
inductive Runs : Directory → List Event → Directory → Prop where
  | nil (d : Directory) : Runs d [] d
  | cons {d next d' : Directory} {operation : Operation} {cleared : Bool} {events : List Event} :
      operation.run.run d = (.ok cleared, next) → Runs next events d' →
      Runs d (⟨operation, cleared⟩ :: events) d'

variable {α : Type} [Stored α] {d next d' : Directory} {now : UInt64} {file version : String}
  {records : List α} {cleared : Bool} {events : List Event} {p folder : Path}

theorem Runs.append {events' : List Event} :
    Runs d (events ++ events') d' ↔ ∃ next, Runs d events next ∧ Runs next events' d' := by
  constructor
  · intro h
    induction events generalizing d with
    | nil => exact ⟨d, .nil d, h⟩
    | cons e events ih =>
      cases h with
      | cons hfirst hrest =>
        obtain ⟨next, hevents, hevents'⟩ := ih hrest
        exact ⟨next, .cons hfirst hevents, hevents'⟩
  · rintro ⟨next, h, h'⟩
    induction h with
    | nil => exact h'
    | cons hfirst _ ih => exact .cons hfirst (ih h')

/-! ## What operations do -/

theorem run_bind_eq_ok {β γ : Type} {x : CacheM β} {f : β → CacheM γ} {c : γ}
    (h : (x >>= f).run d = (.ok c, d')) :
    ∃ b next, x.run d = (.ok b, next) ∧ (f b).run next = (.ok c, d') := by
  rw [run_bind] at h
  split at h
  · next b next hx => exact ⟨b, next, hx, h⟩
  · cases h

theorem run_change_eq_ok {fault : CacheFault} {f : Directory → Option Directory} {u : Unit}
    (h : (change fault f).run d = (.ok u, d')) : f d = some d' := by
  rw [run_change] at h
  split at h
  · next hf =>
    cases h
    exact hf
  · cases h

theorem run_save_eq_ok {now : Nat} {u : Unit}
    (h : (save now file records).run d = (.ok u, d')) :
    (d.IsNamed → d.make.isTaken = true) ∧
      d.make.write? file (document now records).render = some d' := by
  rw [run_save] at h
  split at h
  · cases h
  · next htaken =>
    refine ⟨fun hname => ?_, run_change_eq_ok h⟩
    rw [← Bool.not_eq_false]
    exact fun hmissing => htaken ⟨hname, hmissing⟩

theorem write?_of_save (h : (Operation.save now file records).run.run d = (.ok cleared, d')) :
    cleared = false ∧ (d.IsNamed → d.make.isTaken = true) ∧
      d.make.write? file (document now.toNat records).render = some d' := by
  obtain ⟨_, next, hsave, hreturn⟩ := run_bind_eq_ok h
  cases hreturn
  exact ⟨rfl, run_save_eq_ok hsave⟩

theorem remove?_of_remove (h : (Operation.remove file).run.run d = (.ok cleared, d')) :
    cleared = false ∧ d.remove? file = some d' := by
  obtain ⟨_, next, hremove, hreturn⟩ := run_bind_eq_ok h
  cases hreturn
  exact ⟨rfl, run_change_eq_ok hremove⟩

theorem clear?_of_clear (h : Operation.clear.run.run d = (.ok cleared, d')) :
    cleared = true ∧ d.clear? = some d' := by
  obtain ⟨_, next, hclear, hreturn⟩ := run_bind_eq_ok h
  cases hreturn
  exact ⟨rfl, run_change_eq_ok hclear⟩

/-- Refreshing changes nothing if the version is recorded, and otherwise clears the cache and writes
the file with the version. -/
theorem refresh_cases {now : Nat} (h : (refresh now version).run d = (.ok cleared, d')) :
    (d.recorded? = some version ∧ cleared = false ∧ d' = d) ∨
    (d.recorded? ≠ some version ∧ cleared = true ∧ ∃ next, d.clear? = some next ∧
      (next.IsNamed → next.make.isTaken = true) ∧
      next.make.write? versionFile (document now [version]).render = some d') := by
  rw [run_refresh] at h
  split at h
  · next hrecorded =>
    cases h
    exact .inl ⟨hrecorded, rfl, rfl⟩
  · next hrecorded =>
    split at h
    · cases h
    · next next hclear =>
      split at h
      · cases h
      · next hsave =>
        cases h
        exact .inr ⟨hrecorded, rfl, next, run_change_eq_ok hclear, run_save_eq_ok hsave⟩

/-- **An operation changes nothing but what it touches.** -/
theorem changesOnly_run {operation : Operation} (h : operation.run.run d = (.ok cleared, d')) :
    d.ChangesOnly (fun p => Event.Touches ⟨operation, cleared⟩ d' p) d' := by
  cases operation with
  | save now file records =>
    obtain ⟨rfl, -, hwrite⟩ := write?_of_save h
    obtain ⟨p, hname, -, hchanges⟩ := Directory.changesOnly_save hwrite
    exact hchanges.mono fun q hq => .inl ⟨file, rfl, hq ▸ hname⟩
  | remove file =>
    obtain ⟨rfl, hremove⟩ := remove?_of_remove h
    rcases Directory.remove?_eq_some hremove with ⟨p, hname, hfile, rfl⟩ | ⟨-, rfl⟩
    · have hchanges := Directory.changesOnly_erase hfile
      exact hchanges.mono fun q hq => .inl ⟨file, rfl, hq ▸ hchanges.locate hname⟩
    · exact .refl _ _
  | clear =>
    obtain ⟨rfl, hclear⟩ := clear?_of_clear h
    have hchanges := Directory.changesOnly_clear hclear
    exact hchanges.mono fun q hq => .inr ⟨rfl, hchanges.lists hq⟩
  | refresh now version =>
    rcases refresh_cases h with ⟨-, rfl, rfl⟩ | ⟨-, rfl, next, hclear, -, hwrite⟩
    · exact .refl _ _
    · have hcleared := Directory.changesOnly_clear hclear
      obtain ⟨p, hname, -, hstored⟩ := Directory.changesOnly_save hwrite
      refine (hcleared.mono fun q hq => .inr ⟨rfl, hstored.lists (hcleared.lists hq)⟩).trans
        (hstored.mono fun q hq => .inr ⟨rfl, ?_⟩)
      obtain ⟨-, folder, hfolder, hp⟩ := (Directory.locate_eq_ok_iff (by decide)).mp hname
      exact ⟨folder, versionFile, hfolder, hq.trans hp⟩

/-- An operation that does not fail leaves a reachable directory. -/
theorem isReachable_run {operation : Operation} (hreach : d.IsReachable)
    (h : operation.run.run d = (.ok cleared, d')) : d'.IsReachable := by
  cases operation with
  | save now file records =>
    obtain ⟨-, htaken, hwrite⟩ := write?_of_save h
    exact Directory.isReachable_of_write? hreach htaken hwrite
  | remove file =>
    obtain ⟨-, hremove⟩ := remove?_of_remove h
    rcases Directory.remove?_eq_some hremove with ⟨p, -, hfile, rfl⟩ | ⟨-, rfl⟩
    · exact Directory.isReachable_erase hreach hfile
    · exact hreach
  | clear => exact Directory.isReachable_of_clear? hreach (clear?_of_clear h).2
  | refresh now version =>
    rcases refresh_cases h with ⟨-, -, rfl⟩ | ⟨-, -, next, hclear, htaken, hwrite⟩
    · exact hreach
    · have hcleared := Directory.isReachable_of_clear? hreach hclear
      exact Directory.isReachable_of_write? hcleared htaken hwrite

namespace Runs

theorem isReachable (h : Runs d events d') (hreach : d.IsReachable) : d'.IsReachable := by
  induction h with
  | nil d => exact hreach
  | cons hfirst _ ih => exact ih (isReachable_run hreach hfirst)

/-- **A run changes nothing but what its operations touch.** -/
theorem changesOnly (h : Runs d events d') :
    d.ChangesOnly (fun p => ∃ e ∈ events, e.Touches d' p) d' := by
  induction h with
  | nil d => exact .refl _ _
  | @cons d next d' operation cleared events hfirst _ ih =>
    have hrun := changesOnly_run hfirst
    refine (hrun.mono fun p hp => ?_).trans (ih.mono fun p ⟨e, he, htouches⟩ => ?_)
    · refine ⟨⟨operation, cleared⟩, List.mem_cons_self, ?_⟩
      rcases hp with ⟨file, hfile, hname⟩ | ⟨hcleared, hlists⟩
      · exact .inl ⟨file, hfile, ih.locate hname⟩
      · exact .inr ⟨hcleared, ih.lists hlists⟩
    · exact ⟨e, List.mem_cons_of_mem _ he, htouches⟩

/-- What stands at a place that no operation touches. -/
theorem keeps (h : Runs d events d') (huntouched : ∀ e ∈ events, ¬ e.Touches d' p) :
    d.Keeps d' p :=
  h.changesOnly.keeps fun ⟨e, he, htouches⟩ => huntouched e he htouches

theorem find?_of_text {content : String} (h : Runs d events d')
    (huntouched : ∀ e ∈ events, ¬ e.Touches d' p)
    (htext : d.tree.find? p = some (.text content)) :
    d'.tree.find? p = some (.text content) :=
  h.changesOnly.find?_of_text (fun ⟨e, he, htouches⟩ => huntouched e he htouches) htext

end Runs

/-! ## Loading what was stored -/

theorem run_load_eq_ok_iff :
    (load file : CacheM (List α)).run d = (.ok records, d) ↔ d.stored? α file = some records := by
  rw [run_load, Directory.stored?]
  cases d.read? file with
  | none => constructor <;> intro h <;> cases h
  | some content =>
    dsimp only
    rw [Option.bind_some]
    cases Stored.recordsIn? α content with
    | none => constructor <;> intro h <;> cases h
    | some found =>
      constructor
      · intro h
        cases h
        rfl
      · intro h
        cases h
        rfl

/-- A text is read from the place that a name leads to. -/
theorem read?_eq_some_iff {content : String} : d.read? file = some content ↔
    ∃ p, d.locate file = .ok p ∧ d.tree.find? p = some (.text content) := by
  unfold Directory.read? Directory.entry?
  cases d.locate file with
  | error e => simp
  | ok p =>
    dsimp only
    cases hp : d.tree.find? p with
    | none => simp [hp]
    | some entry => cases entry <;> simp [hp]

theorem stored?_of_document {now : Nat} (hnow : now < UInt64.size)
    (hrecords : ∀ r ∈ records, Stored.ReadsBack r) (hname : d.locate file = .ok p)
    (hdocument : d.tree.find? p = some (.text (document now records).render)) :
    d.stored? α file = some records := by
  rw [Directory.stored?, read?_eq_some_iff.mpr ⟨p, hname, hdocument⟩]
  exact Stored.recordsIn?_document hnow hrecords

namespace Runs

variable {before after : List Event}

/-- **Records are loaded from where they were last saved**, by every name that leads there. -/
theorem load_saved (h : Runs d (before ++ ⟨.save now file records, cleared⟩ :: after) d')
    (hrecords : ∀ r ∈ records, Stored.ReadsBack r) :
    ∃ p, d'.locate file = .ok p ∧ ((∀ e ∈ after, ¬ e.Touches d' p) →
      ∀ name, d'.locate name = .ok p → (load name : CacheM (List α)).run d' = (.ok records, d')) := by
  obtain ⟨next, -, hrest⟩ := Runs.append.mp h
  cases hrest with
  | cons hsave hafter =>
    obtain ⟨-, -, hwrite⟩ := write?_of_save hsave
    obtain ⟨p, hname, htext, -⟩ := Directory.changesOnly_save hwrite
    refine ⟨p, hafter.changesOnly.locate hname, fun huntouched name hname' => ?_⟩
    rw [run_load_eq_ok_iff]
    exact stored?_of_document now.toNat_lt hrecords hname' (hafter.find?_of_text huntouched htext)

/-- In a directory that exists, nothing stands where a file was last removed. -/
theorem find?_removed (h : Runs d (before ++ ⟨.remove file, cleared⟩ :: after) d')
    (hfolder : d.path? = some folder) (hname : d'.locate file = .ok p)
    (huntouched : ∀ e ∈ after, ¬ e.Touches d' p) : d'.tree.find? p = none := by
  obtain ⟨next, hbefore, hrest⟩ := Runs.append.mp h
  cases hrest with
  | cons hremove hafter =>
    have hnext := hbefore.changesOnly.path? hfolder
    have hrun := changesOnly_run hremove
    have hlocate := hrun.locate_of_path? hnext (hafter.changesOnly.locate_of_path?
      (hrun.path? hnext) hname)
    obtain ⟨-, hremove⟩ := remove?_of_remove hremove
    rcases Directory.remove?_eq_some hremove with ⟨q, hq, -, rfl⟩ | ⟨⟨e, he⟩, -⟩
    · obtain rfl := Except.ok.inj (hlocate.symm.trans hq)
      rcases hafter.keeps huntouched with heq | ⟨hnone, -⟩
      · rw [heq, FileTree.find?_erase, if_pos rfl]
      · cases hnone.symm.trans (hrun.path? hnext)
    · cases hlocate.symm.trans he

/-- In a directory that exists and has a name, no file that can be asked for stands right below it
since it was last cleared. -/
theorem isFile_cleared (h : Runs d (before ++ ⟨.clear, cleared⟩ :: after) d')
    (hname : d.IsNamed) (hfolder : d.path? = some folder) (hbars : ¬ Directory.Bars d.parts file)
    (huntouched : ∀ e ∈ after, ¬ e.Touches d' (folder ++ [file])) :
    d'.tree.isFile (folder ++ [file]) = false := by
  obtain ⟨next, hbefore, hrest⟩ := Runs.append.mp h
  cases hrest with
  | cons hclear hafter =>
    have hnext := hbefore.changesOnly.path? hfolder
    have hrun := changesOnly_run hclear
    obtain ⟨-, hclear⟩ := clear?_of_clear hclear
    rcases hafter.keeps huntouched with heq | ⟨hnone, -⟩
    · rw [← hbefore.changesOnly.toPlace_eq] at hname hbars
      rw [FileTree.isFile, heq]
      exact Directory.isFile_of_clear? hclear hname hnext hbars
    · cases hnone.symm.trans (hrun.path? hnext)

end Runs

/-! ## Refreshing -/

/-- Refreshing a cache tells whether it was cleared, and leaves it for the version. -/
structure Refreshed (d : Directory) (version : String) (cleared : Bool) (d' : Directory) : Prop where
  /-- The cache is left alone exactly if the file with the version can be loaded and the version
  comes first in it. -/
  cleared_eq_false_iff : cleared = false ↔ ∃ rest,
    (load versionFile : CacheM (List String)).run d = (.ok (version :: rest), d)
  eq_of_not_cleared : cleared = false → d' = d
  /-- Otherwise the version is recorded, and its file is the only one left in the directory that can
  be asked for, if the directory has a name by which it can be reached. -/
  only_version : cleared = true → ∃ folder, d'.path? = some folder ∧
    (load versionFile : CacheM (List String)).run d' = (.ok [version], d') ∧
    (d.IsNamed → d.IsReachable → ∀ name, ¬ Directory.Bars d.parts name →
      (d'.tree.isFile (folder ++ [name]) = true ↔ name = versionFile))
  /-- Folders stay, with all that is in them, and so does all that is outside. -/
  keeps (p : Path) : d.tree.find? p = some .folder ∨ ¬ d'.Lists p → d.Keeps d' p
  /-- As long as the file with the version is not touched, the cache is left alone for the version
  and cleared for any other. -/
  again {events : List Event} {later : Directory} : Runs d' events later →
    (∀ p, later.locate versionFile = .ok p → ∀ e ∈ events, ¬ e.Touches later p) →
    (∀ now, (refresh now version).run later = (.ok false, later)) ∧
      ∀ now other, other ≠ version → ∃ last, (refresh now other).run later = (.ok true, last)

theorem isPlain_versionFile : Directory.IsPlain versionFile := by
  decide

theorem recorded?_eq_some_iff : d.recorded? = some version ↔
    ∃ rest, (load versionFile : CacheM (List String)).run d = (.ok (version :: rest), d) := by
  simp only [Directory.recorded?, Option.bind_eq_some_iff, List.head?_eq_some_iff,
    run_load_eq_ok_iff]
  constructor
  · rintro ⟨_, hstored, rest, rfl⟩
    exact ⟨rest, hstored⟩
  · rintro ⟨rest, hstored⟩
    exact ⟨_, hstored, rest, rfl⟩

/-- A recorded version stands in a text. -/
theorem exists_text_of_recorded? (h : d.recorded? = some version) : ∃ content p,
    d.read? versionFile = some content ∧ d.locate versionFile = .ok p ∧
      d.tree.find? p = some (.text content) := by
  obtain ⟨stored, hstored, -⟩ := Option.bind_eq_some_iff.mp h
  obtain ⟨content, hread, -⟩ := Option.bind_eq_some_iff.mp hstored
  obtain ⟨p, hname, htext⟩ := read?_eq_some_iff.mp hread
  exact ⟨content, p, hread, hname, htext⟩

/-- A cache of the version is left alone. -/
theorem run_refresh_of_recorded (h : d.recorded? = some version) (now : Nat) :
    (refresh now version).run d = (.ok false, d) := by
  rw [run_refresh, if_pos h]

/-- A cache of another version is cleared, and nothing stands in the way of that where the file with
the version can be loaded. -/
theorem exists_run_refresh (h : d.recorded? = some version) (now : Nat) {other : String}
    (hother : other ≠ version) : ∃ last, (refresh now other).run d = (.ok true, last) := by
  obtain ⟨content, p, -, hname, htext⟩ := exists_text_of_recorded? h
  obtain ⟨hbars, folder, hfolder, -⟩ := (Directory.locate_eq_ok_iff isPlain_versionFile).mp hname
  have hfile : d.entry? versionFile ≠ some .folder := by
    intro hentry
    rw [Directory.entry?, hname] at hentry
    cases htext.symm.trans hentry
  have hne : d.recorded? ≠ some other := fun heq => hother (Option.some.inj (heq.symm.trans h))
  obtain ⟨_, last, hrun, -⟩ := exists_run_refresh_of_path? hfolder hbars hfile now hne
  exact ⟨last, hrun⟩

/-- The version stays recorded as long as its file is not touched. -/
theorem Runs.recorded? (h : Runs d events d')
    (huntouched : ∀ p, d'.locate versionFile = .ok p → ∀ e ∈ events, ¬ e.Touches d' p)
    (hrecorded : d.recorded? = some version) : d'.recorded? = some version := by
  obtain ⟨content, p, hread, hname, htext⟩ := exists_text_of_recorded? hrecorded
  have hname' := h.changesOnly.locate hname
  have hread' : d'.read? versionFile = some content :=
    read?_eq_some_iff.mpr ⟨p, hname', h.find?_of_text (huntouched p hname') htext⟩
  rw [Directory.recorded?, Directory.stored?, hread', ← hread]
  exact hrecorded

/-- Of a cleared directory with a name in which a file is stored, that file is the only one that can
be asked for. -/
theorem isFile_of_stored (hreach : d.IsReachable) (hnamed : d.IsNamed) (hclear : d.clear? = some next)
    (hstored : next.ChangesOnly (fun q => q = folder ++ [file]) d')
    (hfolder : d'.path? = some folder) {name : String} (hbars : ¬ Directory.Bars d.parts name)
    (hname : name ≠ file) : d'.tree.isFile (folder ++ [name]) = false := by
  have hne : folder ++ [name] ≠ folder ++ [file] := fun heq =>
    hname (List.singleton_inj.mp (List.append_cancel_left heq))
  have hcleared : next.tree.isFile (folder ++ [name]) = false := by
    rcases Directory.clear?_eq_some hclear with ⟨there, -, hthere, -⟩ | ⟨hnone, rfl⟩
    · have hnext := Directory.path?_of_clear? hclear hthere
      obtain rfl := Option.some.inj ((hstored.path? hnext).symm.trans hfolder)
      exact Directory.isFile_of_clear? hclear hnamed hthere hbars
    · rw [FileTree.isFile,
        Directory.find?_of_path?_eq_none hreach (hnone hnamed) hstored.toPlace_eq hfolder]
      rfl
  rcases hstored.keeps hne with heq | ⟨-, -, hmade⟩
  · rw [FileTree.isFile, heq]
    exact hcleared
  · rw [FileTree.isFile, hmade]
    rfl

/-- **What refreshing leaves, and what it tells from then on.** -/
theorem refreshed_of_run (h : (refresh now.toNat version).run d = (.ok cleared, d')) :
    Refreshed d version cleared d' := by
  have hrun : (Operation.refresh now version).run.run d = (.ok cleared, d') := h
  have hchanges := changesOnly_run hrun
  have hagain (hrecorded : d'.recorded? = some version) {events : List Event} {later : Directory}
      (hrun : Runs d' events later)
      (huntouched : ∀ p, later.locate versionFile = .ok p → ∀ e ∈ events, ¬ e.Touches later p) :
      (∀ now, (refresh now version).run later = (.ok false, later)) ∧
        ∀ now other, other ≠ version →
          ∃ last, (refresh now other).run later = (.ok true, last) := by
    have hstill := hrun.recorded? huntouched hrecorded
    exact ⟨run_refresh_of_recorded hstill, fun now _ => exists_run_refresh hstill now⟩
  rcases refresh_cases h with ⟨hrecorded, rfl, rfl⟩ | ⟨hrecorded, rfl, next, hclear, -, hwrite⟩
  · exact
      { cleared_eq_false_iff := iff_of_true rfl (recorded?_eq_some_iff.mp hrecorded)
        eq_of_not_cleared := fun _ => rfl
        only_version := fun h => nomatch h
        keeps := fun _ _ => .inl rfl
        again := hagain hrecorded }
  · obtain ⟨p, hname, htext, hstored⟩ := Directory.changesOnly_save hwrite
    have hload : (load versionFile : CacheM (List String)).run d' = (.ok [version], d') :=
      run_load_eq_ok_iff.mpr (stored?_of_document now.toNat_lt
        (fun v _ => Stored.readsBack_string v) hname htext)
    obtain ⟨-, folder, hfolder, rfl⟩ := (Directory.locate_eq_ok_iff isPlain_versionFile).mp hname
    exact
      { cleared_eq_false_iff := by
          refine iff_of_false (fun h => nomatch h) fun hload => hrecorded ?_
          exact recorded?_eq_some_iff.mpr hload
        eq_of_not_cleared := fun h => nomatch h
        only_version := by
          refine fun _ => ⟨folder, hfolder, hload, fun hnamed hreach name hbars =>
            ⟨fun hfile => ?_, ?_⟩⟩
          · by_contra hne
            cases hfile.symm.trans
              (isFile_of_stored hreach hnamed hclear hstored hfolder hbars hne)
          · rintro rfl
            rw [FileTree.isFile, htext]
            rfl
        keeps := by
          rintro q (hq | hq)
          · exact .inl ((hchanges.folders hq).trans hq.symm)
          · refine hchanges.keeps ?_
            rintro (⟨file, hnone, -⟩ | ⟨-, hlists⟩)
            · cases hnone
            · exact hq hlists
        again := hagain (recorded?_eq_some_iff.mpr ⟨[], hload⟩) }

/-! ## All laws -/

/-- Plain names lead to places of their own. -/
theorem eq_of_locate_eq {a b : String} (ha : Directory.IsPlain a) (hb : Directory.IsPlain b)
    (hleads : d.locate a = .ok p) (hleads' : d.locate b = .ok p) : a = b := by
  obtain ⟨-, folder, hfolder, rfl⟩ := (Directory.locate_eq_ok_iff ha).mp hleads
  obtain ⟨-, there, hthere, heq⟩ := (Directory.locate_eq_ok_iff hb).mp hleads'
  obtain rfl := Option.some.inj (hfolder.symm.trans hthere)
  exact List.singleton_inj.mp (List.append_cancel_left heq)

/-- What a run of operations leaves in a directory, and what refreshing it then does. -/
structure Laws (start : Directory) (events : List Event) (d : Directory) : Prop where
  toPlace_eq : d.toPlace = start.toPlace
  isReachable : start.IsReachable → d.IsReachable
  folders {p : Path} : start.tree.find? p = some .folder → d.tree.find? p = some .folder
  keeps {p : Path} : (∀ e ∈ events, ¬ e.Touches d p) → start.Keeps d p
  name_eq {a b : String} {p : Path} : Directory.IsPlain a → Directory.IsPlain b →
    d.locate a = .ok p → d.locate b = .ok p → a = b
  load_saved {α : Type} [Stored α] {before after : List Event} {now : UInt64} {file : String}
    {records : List α} {cleared : Bool} :
    events = before ++ ⟨.save now file records, cleared⟩ :: after →
    (∀ r ∈ records, Stored.ReadsBack r) →
    ∃ p, d.locate file = .ok p ∧ ((∀ e ∈ after, ¬ e.Touches d p) →
      ∀ name, d.locate name = .ok p → (load name : CacheM (List α)).run d = (.ok records, d))
  find?_removed {before after : List Event} {file : String} {cleared : Bool} {p folder : Path} :
    events = before ++ ⟨.remove file, cleared⟩ :: after → start.path? = some folder →
    d.locate file = .ok p → (∀ e ∈ after, ¬ e.Touches d p) → d.tree.find? p = none
  isFile_cleared {before after : List Event} {cleared : Bool} {folder : Path} {file : String} :
    events = before ++ ⟨.clear, cleared⟩ :: after → start.IsNamed → start.path? = some folder →
    ¬ Directory.Bars start.parts file → (∀ e ∈ after, ¬ e.Touches d (folder ++ [file])) →
    d.tree.isFile (folder ++ [file]) = false
  refreshed {now : UInt64} {version : String} {cleared : Bool} {d' : Directory} :
    (refresh now.toNat version).run d = (.ok cleared, d') → Refreshed d version cleared d'

/-- **The laws of the cache**, for every run of operations that do not fail. -/
theorem laws_of_runs {start : Directory} (h : Runs start events d) : Laws start events d where
  toPlace_eq := h.changesOnly.toPlace_eq
  isReachable := h.isReachable
  folders := h.changesOnly.folders
  keeps := h.keeps
  name_eq := eq_of_locate_eq
  load_saved := by
    rintro α _ before after now file records cleared rfl hrecords
    exact h.load_saved hrecords
  find?_removed := by
    rintro before after file cleared p folder rfl hfolder hname huntouched
    exact h.find?_removed hfolder hname huntouched
  isFile_cleared := by
    rintro before after cleared folder file rfl hnamed hfolder hbars huntouched
    exact h.isFile_cleared hnamed hfolder hbars huntouched
  refreshed := refreshed_of_run

/-- A directory with a folder, a list of records, and a version that cannot be read. -/
def usedDirectory : Directory where
  working := []
  name := "cache"
  tree := (((FileTree.empty.insert ["cache"] .folder).insert ["cache", "old"] .folder).insert
    ["cache", "b.json"] (.text "[]")).insert ["cache", versionFile] (.bytes .empty)

/-- In a used directory one file is removed, another is written, and then the cache is refreshed. -/
theorem laws_of_usedDirectory : ∃ d d',
    Runs usedDirectory [⟨.remove "b.json", false⟩, ⟨.save 0 "a.json" ["x"], false⟩] d ∧
    (load "a.json" : CacheM (List String)).run d = (.ok ["x"], d) ∧
    d.tree.find? ["cache", "b.json"] = none ∧
    (refresh 0 "v1").run d = (.ok true, d') ∧
    d'.tree.find? ["cache", "old"] = some .folder ∧
    (∀ name, ¬ Directory.Bars ["cache"] name →
      (d'.tree.isFile (["cache"] ++ [name]) = true ↔ name = versionFile)) ∧
    (refresh 1 "v1").run d' = (.ok false, d') ∧
    ∃ last, (refresh 1 "v2").run d' = (.ok true, last) := by
  obtain ⟨d, d', hrun, hrefresh⟩ : ∃ d d',
      Runs usedDirectory [⟨.remove "b.json", false⟩, ⟨.save 0 "a.json" ["x"], false⟩] d ∧
      (refresh (0 : UInt64).toNat "v1").run d = (.ok true, d') :=
    ⟨_, _, .cons rfl (.cons rfl (.nil _)), rfl⟩
  have hlaws := laws_of_runs hrun
  have hpath : d.path? = some ["cache"] := hrun.changesOnly.path? rfl
  have hremoved : d.locate "b.json" = .ok ["cache", "b.json"] := hrun.changesOnly.locate rfl
  have hrefreshed := hlaws.refreshed hrefresh
  have hlast : [(⟨.remove "b.json", false⟩ : Event), ⟨.save 0 "a.json" ["x"], false⟩] =
      [⟨.remove "b.json", false⟩] ++ ⟨.save 0 "a.json" ["x"], false⟩ :: [] := rfl
  have hfirst : [(⟨.remove "b.json", false⟩ : Event), ⟨.save 0 "a.json" ["x"], false⟩] =
      [] ++ ⟨.remove "b.json", false⟩ :: [⟨.save 0 "a.json" ["x"], false⟩] := rfl
  obtain ⟨p, hsaved, hload⟩ := hlaws.load_saved hlast fun r _ => Stored.readsBack_string r
  obtain ⟨folder, hfolder, -, honly⟩ := hrefreshed.only_version rfl
  obtain ⟨hagain, hother⟩ := hrefreshed.again (.nil d') fun _ _ e he => nomatch he
  have hold : d.tree.find? ["cache", "old"] = some .folder := hlaws.folders rfl
  refine ⟨d, d', hrun, hload (fun e he => nomatch he) _ hsaved, ?_, hrefresh, ?_, ?_, hagain 1,
    hother 1 "v2" (by decide)⟩
  · refine hlaws.find?_removed hfirst (rfl : _ = some ["cache"]) hremoved ?_
    intro e he
    obtain rfl := List.mem_singleton.mp he
    rintro (⟨file, hfile, hleads⟩ | ⟨hcleared, -⟩)
    · cases hfile
      exact absurd (hlaws.name_eq (by decide) (by decide) hremoved hleads) (by decide)
    · cases hcleared
  · rcases hrefreshed.keeps _ (.inl hold) with heq | ⟨-, hnone, -⟩
    · exact heq.trans hold
    · cases hnone.symm.trans hold
  · have hstep : (Operation.refresh 0 "v1").run.run d = (.ok true, d') := hrefresh
    obtain rfl := Option.some.inj (hfolder.symm.trans ((changesOnly_run hstep).path? hpath))
    have hparts : d.parts = ["cache"] := by
      rw [hlaws.toPlace_eq]
      rfl
    rw [hparts, hlaws.toPlace_eq] at honly
    exact honly (by decide) (hlaws.isReachable (.inl ⟨["cache"], rfl⟩))

/-- The folder of the used directory, with the program running in it and the directory unnamed. -/
def unnamedDirectory : Directory :=
  { usedDirectory with working := ["cache"], name := "" }

/-- The used directory, by a way that leads through a folder which is not there. -/
def detourDirectory : Directory :=
  { usedDirectory with name := "m/../cache" }

/-- **Files that are shared, and files that are not cleared.**  Two names may lead to one file, so
that what was stored under the one is replaced under the other.  Files that are not found under the
name of the directory stay when the cache is cleared for another version: if the directory has no
name, or if its way is only made when the version is written. -/
theorem files_shared_or_kept :
    (∃ d, Runs usedDirectory
        [⟨.save 0 "a.json" ["x"], false⟩, ⟨.save 0 "./a.json" ["y"], false⟩] d ∧
      (load "a.json" : CacheM (List String)).run d = (.ok ["y"], d)) ∧
    (∃ d, Runs unnamedDirectory [⟨.save 0 "a.json" ["x"], false⟩, ⟨.refresh 0 "v1", true⟩] d ∧
      (load "a.json" : CacheM (List String)).run d = (.ok ["x"], d)) ∧
    ∃ d, Runs detourDirectory [⟨.refresh 0 "v1", true⟩] d ∧ d.isFile "b.json" = true := by
  have hload {d : Directory} {text : String} (hname : d.locate "a.json" = .ok ["cache", "a.json"])
      (hfile : d.tree.find? ["cache", "a.json"] =
        some (.text (document (UInt64.toNat 0) [text]).render)) :
      (load "a.json" : CacheM (List String)).run d = (.ok [text], d) :=
    run_load_eq_ok_iff.mpr (stored?_of_document (UInt64.toNat_lt 0)
      (fun r _ => Stored.readsBack_string r) hname hfile)
  exact ⟨⟨_, .cons rfl (.cons rfl (.nil _)), hload rfl rfl⟩,
    ⟨_, .cons rfl (.cons rfl (.nil _)), hload rfl rfl⟩, _, .cons rfl (.nil _), rfl⟩

end TransitChanges.Cache
