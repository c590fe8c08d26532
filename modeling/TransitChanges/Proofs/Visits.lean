import TransitChanges.Proofs.Interleaving

/-!
# Sessions one after the other

A *visit* is one session on a cache directory, from its start until it is stopped or dropped.
Visits follow one another, each on a network of its own, and some of them leave the cache alone.

Between visits the directory holds the tables of an earlier visit that has the recorded version, or
none (`Visit.isSound_run`).  A visit goes on from these only if it has the version too.  So, as long
as equal texts of versions mean equal versions, it goes on from tables that it would have built
itself, since of a network whose routes are added once the version tells them all.

All of this needs a directory that has a name, since no other is ever cleared.  Without one a visit
records its own version beside the tables of the visit before, and goes on from those if it can read
their numbering (`Visit.restored_of_not_isNamed`).

* `Visit.start_eq_build`: what every visit starts with.
* `Visit.exists_start_of_recorded`: the cache never keeps a visit from starting.
* `Visit.loaded_again`: a visit after one on the same network builds nothing.
-/

namespace TransitChanges

open Cache

/-- One session on a cache directory: the network it is for, whether it leaves the cache alone, when
it starts, and when it is stopped unless it is dropped. -/
structure Visit where
  edits : List Edit
  filtered : Bool
  startedAt : UInt64
  stoppedAt : Option UInt64

namespace Visit

/-- The network of the visit. -/
def network (v : Visit) : Network :=
  .ofEdits v.edits

/-- The start of the visit. -/
def start (v : Visit) (d : Directory) : Except Fault Session × Directory :=
  (Session.start v.startedAt.toNat v.network.feed ⟨v.filtered⟩).run d

/-- The directory after the visit. -/
def run (d : Directory) (v : Visit) : Directory :=
  match v.start d, v.stoppedAt with
  | (.ok s, d), some now => ((s.stop now.toNat).run d).2
  | (_, d), _ => d

/-- The directory after visits one after the other. -/
def runAll (d : Directory) (visits : List Visit) : Directory :=
  visits.foldl run d

/-- The timetables of some visits may stand under their versions. -/
def Own (visits : List Visit) (feed : Feed) (version : String) : Prop :=
  ∃ v ∈ visits, v.network.feed = feed ∧ feed.version.text = version

variable {d d' : Directory} {v : Visit} {own : Feed → String → Prop}

/-! ## What a visit leaves -/

theorem start_filtered (hv : v.filtered = true) : (v.start d).2 = d := by
  rw [start, hv, Session.run_start_filtered]

theorem run_filtered (hv : v.filtered = true) : run d v = d := by
  unfold run start
  rw [hv, Session.run_start_filtered]
  cases Connections.build v.network.feed.source v.network.feed.interchanges <;>
    cases v.stoppedAt <;> rfl

/-- In a directory that has a name, a start fails, or there is a sound session and the directory is
of its version. -/
theorem start_cases (hv : v.filtered = false) (hname : d.IsNamed) (hd : d.IsSound own) :
    ∃ result d', v.start d = (result, d') ∧ d'.toPlace = d.toPlace ∧ d'.IsSound own ∧
      ∀ s, result = .ok s → d'.IsOf own v.network.feed.version.text ∧ s.feed = v.network.feed ∧
        s.IsSound d'.parts own := by
  have hnow : v.startedAt.toNat < UInt64.size := v.startedAt.toNat_lt
  unfold start
  rw [hv]
  rcases hd with hd | ⟨version, hd⟩
  · rcases Session.start_of_isVacant hnow hd own v.network.feed with
      ⟨fault, d', hrun, hplace, hvacant⟩ | ⟨result, d', hrun, hplace, hof, hresult⟩
    · refine ⟨.error fault, d', hrun, hplace, .inl hvacant, fun s hs => ?_⟩
      cases hs
    · exact ⟨result, d', hrun, hplace, .inr ⟨_, hof⟩, fun s hs => ⟨hof, hresult s hs⟩⟩
  · obtain ⟨result, d', hrun, hplace, hof, hresult⟩ :=
      Session.start_of_isOf hnow hd v.network.feed fun hunnamed => absurd hname hunnamed
    exact ⟨result, d', hrun, hplace, .inr ⟨_, hof⟩, fun s hs => ⟨hof, hresult s hs⟩⟩

/-- **A visit leaves a sound directory** if its tables may stand under its version. -/
theorem isSound_run (hname : d.IsNamed) (hd : d.IsSound own)
    (hown : own v.network.feed v.network.feed.version.text) :
    (run d v).toPlace = d.toPlace ∧ (run d v).IsSound own := by
  cases hv : v.filtered with
  | true =>
    rw [run_filtered hv]
    exact ⟨rfl, hd⟩
  | false =>
    obtain ⟨result, d', hstart, hplace, hsound, hresult⟩ := start_cases hv hname hd
    unfold run
    rw [hstart]
    split
    · next s d'' now heq hnow =>
      obtain ⟨rfl, rfl⟩ := Prod.mk.inj heq
      obtain ⟨hof, hfeed, hs⟩ := hresult s rfl
      rw [← hfeed] at hown
      obtain ⟨result, d'', hstop, hplace', hof'⟩ := Session.stop_of_isOf now.toNat_lt hs hof
        fun _ => by rw [← hfeed]; exact hown
      rw [hstop]
      exact ⟨hplace'.trans hplace, .inr ⟨_, hof'⟩⟩
    · next heq _ =>
      obtain ⟨-, rfl⟩ := Prod.mk.inj heq
      exact ⟨hplace, hsound⟩

/-- Visits one after the other leave a sound directory. -/
theorem isSound_runAll {visits : List Visit} (hname : d.IsNamed) (hd : d.IsSound own)
    (hown : ∀ v ∈ visits, own v.network.feed v.network.feed.version.text) :
    (runAll d visits).toPlace = d.toPlace ∧ (runAll d visits).IsSound own := by
  induction visits generalizing d with
  | nil => exact ⟨rfl, hd⟩
  | cons v visits ih =>
    obtain ⟨hplace, hsound⟩ := isSound_run hname hd (hown v List.mem_cons_self)
    obtain ⟨hplaceAll, hsoundAll⟩ := ih (hplace.symm ▸ hname) hsound fun w hw =>
      hown w (List.mem_cons_of_mem _ hw)
    exact ⟨hplaceAll.trans hplace, hsoundAll⟩

/-- In a directory that was vacant and has a name, the tables of the visits stand under their own
versions. -/
theorem isSound_own (hname : d.IsNamed) (hd : d.IsVacant) (before : List Visit) :
    (runAll d before).IsNamed ∧ (runAll d before).IsSound (Own before) := by
  have hstart : d.IsSound (Own before) := .inl hd
  obtain ⟨hplace, hsound⟩ := isSound_runAll hname hstart fun w hw => ⟨w, hw, rfl, rfl⟩
  exact ⟨hplace.symm ▸ hname, hsound⟩

/-! ## What a visit starts with -/

/-- A visit that leaves the cache alone builds its tables. -/
theorem build_of_filtered {s : Session} (hv : v.filtered = true) (h : v.start d = (.ok s, d')) :
    Connections.build v.network.source v.network.interchanges = .ok s.tables ∧
      s.feed = v.network.feed ∧ s.loaded = ⟨false, false, false⟩ := by
  rw [start, hv, Session.run_start_filtered] at h
  have hbuild := (Prod.mk.inj h).1
  cases htables : Connections.build v.network.feed.source v.network.feed.interchanges with
  | error fault =>
    rw [htables] at hbuild
    cases hbuild
  | ok tables =>
    rw [htables] at hbuild
    obtain rfl := Except.ok.inj hbuild
    exact ⟨htables, rfl, rfl⟩

/-- What may stand under the version of a visit comes from networks that are like its own. -/
theorem isLike_of_own {before : List Visit} (honce : ∀ w ∈ before, Edit.AddOnce w.edits)
    (htexts : ∀ w ∈ before, w.network.feed.version.text = v.network.feed.version.text →
      w.network.feed.version = v.network.feed.version) {feed : Feed}
    (h : Own before feed v.network.feed.version.text) :
    ∃ a : Network, a.feed = feed ∧ a.IsLike v.network := by
  obtain ⟨w, hw, rfl, htext⟩ := h
  exact ⟨w.network, rfl, Network.isLike_ofEdits (honce w hw) (htexts w hw htext)⟩

/-- A visit that uses the cache is assembled from what is left of it. -/
theorem feed_of_start {s : Session} (hv : v.filtered = false) (h : v.start d = (.ok s, d')) :
    s.feed = v.network.feed ∧ (s.loaded.vias = true → s.loaded.degrees = true) ∧
      (s.loaded.degrees = true → s.loaded.numbering = true) := by
  rw [start, hv] at h
  obtain ⟨_, _, _, hassemble⟩ := Session.exists_assemble_of_start h
  exact ⟨(Session.feed_of_assemble hassemble).1, Session.loaded_of_assemble hassemble⟩

/-- **Every visit that starts has the tables that it would have built**, if the directory has a name
or the visit leaves it alone, and so it answers every question as if there were no cache.  Tables
are only restored together with those that they refer to, and a visit that is to leave the cache
alone does so.  Nothing is assumed of the records in the files: that they are read back as they were
written is part of the proof. -/
theorem start_eq_build (hd : d.IsVacant) (before : List Visit)
    (honce : ∀ w ∈ v :: before, Edit.AddOnce w.edits)
    (htexts : ∀ w ∈ before, w.network.feed.version.text = v.network.feed.version.text →
      w.network.feed.version = v.network.feed.version) :
    (∀ s d', v.start (runAll d before) = (.ok s, d') →
      (d.IsNamed ∨ v.filtered = true →
        Connections.build v.network.source v.network.interchanges = .ok s.tables) ∧
      s.planner = ⟨s.tables, v.network.service⟩ ∧
      (s.loaded.vias = true → s.loaded.degrees = true) ∧
      (s.loaded.degrees = true → s.loaded.numbering = true)) ∧
    (v.filtered = true → (v.start (runAll d before)).2 = runAll d before ∧
      run (runAll d before) v = runAll d before) := by
  refine ⟨fun s d' hstart => ?_, fun hv => ⟨start_filtered hv, run_filtered hv⟩⟩
  cases hv : v.filtered with
  | true =>
    obtain ⟨htables, hfeed, hloaded⟩ := build_of_filtered hv hstart
    rw [Session.planner, hfeed, hloaded]
    exact ⟨fun _ => htables, rfl, id, id⟩
  | false =>
    obtain ⟨hfeed, hloaded⟩ := feed_of_start hv hstart
    refine ⟨fun hname => ?_, ?_, hloaded⟩
    · have hname := hname.resolve_right Bool.false_ne_true
      obtain ⟨hname', hsound⟩ := isSound_own hname hd before
      obtain ⟨result, d'', hstart', -, -, hresult⟩ := start_cases hv hname' hsound
      obtain ⟨rfl, rfl⟩ := Prod.mk.inj (hstart'.symm.trans hstart)
      obtain ⟨-, -, hs⟩ := hresult s rfl
      obtain ⟨hv, hbefore⟩ := List.forall_mem_cons.mp honce
      exact hs.build_eq hfeed (Network.known_ofEdits v.edits)
        (Network.settled_ofEdits hv).keepsDates fun _ => isLike_of_own hbefore htexts
    · rw [Session.planner, hfeed]
      rfl

/-- **What the cache holds never keeps a visit from starting**: once a version is recorded in a
directory that has a name, every visit on a network that is not too large starts. -/
theorem exists_start_of_recorded (hname : d.IsNamed) (hd : d.IsVacant) (before : List Visit)
    (honce : ∀ w ∈ before, Edit.AddOnce w.edits)
    (htexts : ∀ w ∈ before, w.network.feed.version.text = v.network.feed.version.text →
      w.network.feed.version = v.network.feed.version)
    (hsize : v.network.routes.size ≤ maxRoutes) (hv : v.filtered = false) {version : String}
    (hrecorded : (runAll d before).recorded? = some version) :
    ∃ s d', v.start (runAll d before) = (.ok s, d') := by
  have hknown : v.network.Known := Network.known_ofEdits v.edits
  obtain ⟨t, ht⟩ := Network.exists_connections hknown hsize
  obtain ⟨hname', hsound⟩ := isSound_own hname hd before
  rcases hsound with hvacant | ⟨recorded, hof⟩
  · cases hrecorded.symm.trans hvacant.recorded?_eq_none
  · obtain ⟨cleared, d', hrun, -, hof'⟩ := hof.refresh v.startedAt.toNat_lt
      v.network.feed.version.text fun hunnamed => absurd hname' hunnamed
    have hrestore (feed : Feed) (t' : Connections)
        (hown : Own before feed v.network.feed.version.text)
        (ht' : Connections.build feed.source feed.interchanges = .ok t') :
        Session.restoreNumbering v.network.source t'.numbering.records = .ok t.numbering := by
      obtain ⟨a, rfl, hlike⟩ := isLike_of_own honce htexts hown
      exact Session.restoreNumbering_of_isLike hlike hknown ht' ht
    obtain ⟨s, hstart⟩ := Session.exists_start ht hrestore hrun hof'
    refine ⟨s, d', ?_⟩
    rw [start, hv]
    exact hstart

/-! ## What a visit finds -/

section Again

variable {folder : Path} (hbars : ∀ file ∈ files, ¬ Directory.Bars d.parts file)
include hbars

/-- A visit that is stopped leaves its tables, if no way to a file of the cache is refused. -/
theorem holds_run (hd : d.IsVacant) (hpath : d.path? = some folder)
    (hsize : v.network.routes.size ≤ maxRoutes) (hv : v.filtered = false)
    {now : UInt64} (hstopped : v.stoppedAt = some now) :
    ∃ t, Connections.build v.network.source v.network.interchanges = .ok t ∧
      (run d v).toPlace = d.toPlace ∧ (run d v).IsMarked v.network.feed.version.text ∧
      (run d v).Holds t := by
  obtain ⟨s, d₁, hstart, hplace₁, hof, hconfig, hbuilt, ht⟩ := Session.exists_start_of_isVacant
    v.startedAt.toNat_lt hd hpath (hbars _ (by decide)) (Network.known_ofEdits v.edits) hsize
  obtain ⟨_, d₂, hstop, hplace₂, hmarked, htables⟩ :=
    Session.stop_of_built now.toNat_lt hconfig hbuilt hof
  have hrun : run d v = d₂ := by
    rw [run, start, hv, network, hstart, hstopped]
    dsimp only
    rw [hstop]
  rw [hrun]
  exact ⟨s.tables, ht, hplace₂.trans hplace₁, hmarked, htables.resolve_left fun ⟨_, h⟩ =>
    hbars _ (by decide) (hplace₁ ▸ h)⟩

/-- A visit restores the tables that it finds, if it can read their numbering and the cache is not
cleared for it. -/
theorem exists_isRestored (feed : Feed) {version : String} {t t' : Connections}
    (ht : Connections.build feed.source feed.interchanges = .ok t)
    (ht' : Connections.build v.network.source v.network.interchanges = .ok t')
    (hmarked : d.IsMarked version) (hholds : d.Holds t)
    (hkept : d.IsNamed → version = v.network.feed.version.text)
    (hrestore : Session.restoreNumbering v.network.source t.numbering.records = .ok t'.numbering)
    (hv : v.filtered = false) :
    ∃ s d', v.start d = (.ok s, d') ∧ s.IsRestored d.parts t ∧ s.loaded.all = true := by
  obtain ⟨cleared, d', hrefresh, hplace, hmarked', hholds'⟩ : ∃ cleared d',
      (refresh v.startedAt.toNat v.network.feed.version.text).run d = (.ok cleared, d') ∧
        d'.toPlace = d.toPlace ∧ d'.IsMarked v.network.feed.version.text ∧ d'.Holds t := by
    by_cases hversion : version = v.network.feed.version.text
    · subst hversion
      refine ⟨false, d, ?_, rfl, hmarked, hholds⟩
      rw [run_refresh, if_pos hmarked.recorded?_eq]
    · obtain ⟨d', hrun, hmarked', hwrote⟩ := hmarked.refresh_of_not_isNamed
        (fun hname => hversion (hkept hname)) v.startedAt.toNat_lt hversion
      exact ⟨true, d', hrun, hwrote.toPlace_eq, hmarked', hholds.wrote hwrote⟩
  have hof : d'.IsOf (fun other _ => other = feed) v.network.feed.version.text :=
    ⟨hmarked', .inr ⟨feed, rfl, t, ht, hholds'⟩⟩
  obtain ⟨s, hstart⟩ := Session.exists_start ht' (fun other t'' hother ht'' => by
    rw [hother, ht] at ht''
    rw [← Except.ok.inj ht'']
    exact hrestore) hrefresh hof
  have hassemble := hstart
  rw [Session.run_start, hrefresh] at hassemble
  have hrestored := Session.isRestored_of_holds ht hholds' hrestore (Prod.mk.inj hassemble).1
  rw [hplace] at hrestored
  refine ⟨s, d', ?_, hrestored,
    hrestored.all_loaded (hbars _ (by decide)) (hbars _ (by decide))⟩
  rw [start, hv]
  exact hstart

/-- **A visit after one on a network of its version builds nothing**, if the first one was stopped
and no way to a file of the cache is refused. -/
theorem loaded_again (hd : d.IsVacant) (hpath : d.path? = some folder) {w : Visit}
    (honce : Edit.AddOnce w.edits) (hversion : w.network.feed.version = v.network.feed.version)
    (hsize : w.network.routes.size ≤ maxRoutes) (hw : w.filtered = false) (hv : v.filtered = false)
    {now : UInt64} (hstopped : w.stoppedAt = some now) :
    ∃ s d', v.start (run d w) = (.ok s, d') ∧ s.loaded.all = true := by
  have hknown : v.network.Known := Network.known_ofEdits v.edits
  have hlike : w.network.IsLike v.network := Network.isLike_ofEdits honce hversion
  obtain ⟨t', ht'⟩ :=
    Network.exists_connections hknown (Network.size_eq_of_version hversion ▸ hsize)
  obtain ⟨t, ht, hplace, hmarked, hholds⟩ := holds_run hbars hd hpath hsize hw hstopped
  rw [← hplace] at hbars
  obtain ⟨s, d', hstart, -, hloaded⟩ := exists_isRestored hbars w.network.feed ht ht' hmarked hholds
    (fun _ => by rw [hversion]) (Session.restoreNumbering_of_isLike hlike hknown ht ht') hv
  exact ⟨s, d', hstart, hloaded⟩

/-- **Without a name, a visit goes on from the tables of another network**, if it can read their
numbering: the cache is not cleared for it. -/
theorem restored_of_not_isNamed (hname : ¬ d.IsNamed) (hd : d.IsVacant)
    (hpath : d.path? = some folder) {w : Visit} (hsize : w.network.routes.size ≤ maxRoutes)
    (hw : w.filtered = false) (hv : v.filtered = false) {now : UInt64}
    (hstopped : w.stoppedAt = some now) {t t' : Connections}
    (ht : Connections.build w.network.source w.network.interchanges = .ok t)
    (ht' : Connections.build v.network.source v.network.interchanges = .ok t')
    (hrestore : Session.restoreNumbering v.network.source t.numbering.records =
      .ok t'.numbering) :
    ∃ s d', v.start (run d w) = (.ok s, d') ∧ s.loaded.all = true ∧
      s.tables.degrees.records = t.degrees.records := by
  obtain ⟨t'', ht'', hplace, hmarked, hholds⟩ := holds_run hbars hd hpath hsize hw hstopped
  obtain rfl := Except.ok.inj (ht.symm.trans ht'')
  rw [← hplace] at hbars hname
  obtain ⟨s, d', hstart, hrestored, hloaded⟩ := exists_isRestored hbars w.network.feed ht ht'
    hmarked hholds (fun h => absurd h hname) hrestore hv
  refine ⟨s, d', hstart, hloaded, ?_⟩
  rcases hrestored.degrees with ⟨-, hlevels⟩ | ⟨hnone, -⟩
  · rw [Degrees.records, Degrees.records, hlevels]
  · rw [(Loaded.all_iff.mp hloaded).2.1] at hnone
    cases hnone

end Again

/-! ## The lines that meet -/

/-- The empty folder in which the program runs, as a directory without a name. -/
def withoutName : Directory :=
  { Directory.ofEntries [] with name := "" }

theorem isVacant_withoutName : withoutName.IsVacant := by
  have hpath : withoutName.path? = some [] := rfl
  refine Directory.isVacant_of_path? hpath ?_
  decide

/-- A visit on the lines that meet is dropped, after another one was stopped.  In a directory that
has a name, and after a visit on the same lines, it restores the tables that it would have built.
In the directory without a name, and after a visit on the lines without a station in common, it
restores tables as well, but they are others. -/
theorem start_after_stop :
    (∃ s d', (Visit.mk AddedAgain.early false 3 none).start
        (runAll (.ofEntries []) [⟨AddedAgain.early, false, 1, some 2⟩]) = (.ok s, d') ∧
      s.loaded.all = true ∧
      Connections.build (Network.ofEdits AddedAgain.early).source
        (Network.ofEdits AddedAgain.early).interchanges = .ok s.tables) ∧
    ∃ s d', (Visit.mk AddedAgain.early false 3 none).start
        (runAll withoutName [⟨LateStop.apart, false, 1, some 2⟩]) = (.ok s, d') ∧
      s.loaded.all = true ∧
      Connections.build (Network.ofEdits AddedAgain.early).source
        (Network.ofEdits AddedAgain.early).interchanges ≠ .ok s.tables := by
  have honce : Edit.AddOnce AddedAgain.early := by decide
  obtain ⟨t', ht'⟩ :=
    Network.exists_connections (Network.known_ofEdits AddedAgain.early) (by decide)
  refine ⟨?_, ?_⟩
  · have hpath : (Directory.ofEntries []).path? = some [] := rfl
    obtain ⟨s, d', hstart, hloaded⟩ := loaded_again (v := ⟨AddedAgain.early, false, 3, none⟩)
      (w := ⟨AddedAgain.early, false, 1, some 2⟩) (by decide) Directory.isVacant_empty hpath honce
      rfl (by decide) rfl rfl rfl
    obtain ⟨htables, -⟩ := (start_eq_build (v := ⟨AddedAgain.early, false, 3, none⟩)
      Directory.isVacant_empty [⟨AddedAgain.early, false, 1, some 2⟩]
      (List.forall_mem_cons.mpr ⟨honce, List.forall_mem_singleton.mpr honce⟩)
      (List.forall_mem_singleton.mpr fun _ => rfl)).1 s d' hstart
    exact ⟨s, d', hstart, hloaded, htables (.inl (by decide))⟩
  · have hpath : withoutName.path? = some [] := rfl
    obtain ⟨t, ht⟩ :=
      Network.exists_connections (Network.known_ofEdits LateStop.apart) (by decide)
    obtain ⟨s, d', hstart, hloaded, hrecords⟩ := restored_of_not_isNamed
      (v := ⟨AddedAgain.early, false, 3, none⟩) (w := ⟨LateStop.apart, false, 1, some 2⟩)
      (by decide) (by decide) isVacant_withoutName hpath (by decide) rfl rfl rfl ht ht'
      (LateStop.restoreNumbering_records ht ht')
    refine ⟨s, d', hstart, hloaded, fun htables => ?_⟩
    exact LateStop.records_ne ht htables hrecords.symm

end Visit
end TransitChanges
