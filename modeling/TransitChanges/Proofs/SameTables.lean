import TransitChanges.Proofs.SessionTables

/-!
# Tables that would have been built

A session that goes on from the tables of another network has those that it would have built for its
own, if the networks have one version and keep the dates of their routes: then the numbering is read
back as that of its own network, and degrees and intermediate routes are the same.

* `Session.IsSound.build_eq`: the tables of a session are those that it would have built.
* `Session.exists_start`, `Session.exists_start_of_isVacant`: starts that succeed.
-/

namespace TransitChanges

open Cache Bits

/-! ## Tables of the same version -/

/-- A network that has the version of another, and whose calls keep the dates of their routes. -/
structure Network.IsLike (a b : Network) : Prop where
  known : a.Known
  keepsDates : a.KeepsDates
  version_eq : a.feed.version = b.feed.version

theorem Network.isLike_ofEdits {edits : List Edit} {b : Network} (honce : Edit.AddOnce edits)
    (hversion : (ofEdits edits).feed.version = b.feed.version) : (ofEdits edits).IsLike b :=
  ⟨known_ofEdits edits, (settled_ofEdits honce).keepsDates, hversion⟩

namespace Session

open Directory

variable {s : Session} {parts : List String} {a b : Network} {t t' : Connections}
  {own : Feed → String → Prop} {d d' : Directory} {version : String} {now : Nat}

/-- The records of a network of the version are those of the numbering that would be built. -/
theorem restoreNumbering_of_isLike (ha : a.IsLike b) (hb : b.Known)
    (ht : Connections.build a.source a.interchanges = .ok t)
    (ht' : Connections.build b.source b.interchanges = .ok t') :
    restoreNumbering b.source t.numbering.records = .ok t'.numbering := by
  rw [(Network.alike_of_version ha.version_eq ht ht').records_eq]
  exact Numbering.restoreNumbering_records (Network.faithful_source hb)
    (Connections.isBuilt_of_build ht').1

/-- Tables restored from those of a network of the version are those that would be built. -/
theorem IsRestored.build_eq (hs : s.IsRestored parts t) (hfeed : s.feed = b.feed)
    (ha : a.IsLike b) (hb : b.Known) (hkeeps : b.KeepsDates)
    (ht : Connections.build a.source a.interchanges = .ok t) :
    Connections.build b.source b.interchanges = .ok s.tables := by
  cases hbuild : Connections.build b.source b.interchanges with
  | error fault =>
    rw [← Network.build_eq_error_iff ha.known hb ha.version_eq, ht] at hbuild
    cases hbuild
  | ok t' =>
    obtain ⟨hlevels, hvias⟩ :=
      Network.tables_eq_of_keepsDates ha.version_eq ht hbuild ha.known hb ha.keepsDates hkeeps
    have hrestore := restoreNumbering_of_isLike ha hb ht hbuild
    simp only [Connections.build, Fault.bind_eq_ok_iff] at hbuild
    obtain ⟨n, -, stations, hstations, degrees, hdegrees, hbuild⟩ := hbuild
    obtain rfl := Except.ok.inj hbuild
    have hn : degrees.numbering = n := Degrees.numbering_of_build hdegrees
    -- the numbering first, since everything else is told for it
    have hnumbering : s.tables.numbering = n := by
      have hrestored := hs.numbering
      rw [hfeed] at hrestored
      exact (Except.ok.inj (hrestored.symm.trans hrestore)).trans hn
    have hstationsEq : s.tables.stations = stations := by
      have hbuilt := hs.stations
      rw [hfeed, hnumbering] at hbuilt
      exact Except.ok.inj (hbuilt.symm.trans hstations)
    have hdegreesEq : s.tables.degrees = degrees := by
      rcases hs.degrees with ⟨-, hrestored⟩ | ⟨-, -, hbuilt⟩
      · exact Degrees.eq_of_levels_eq (hnumbering.trans hn.symm) (hrestored.trans hlevels)
      · rw [hfeed, hnumbering] at hbuilt
        exact Except.ok.inj (hbuilt.symm.trans hdegrees)
    have hviasEq : s.tables.vias = Vias.build n.sharedDates degrees := by
      rcases hs.vias with ⟨-, -, hrestored⟩ | ⟨-, -, hbuilt⟩
      · exact hrestored.trans hvias
      · rw [hbuilt, hnumbering, hdegreesEq]
    have htables : (⟨degrees, stations, Vias.build n.sharedDates degrees⟩ : Connections) =
        ⟨s.tables.degrees, s.tables.stations, s.tables.vias⟩ := by
      rw [hdegreesEq, hstationsEq, hviasEq]
    exact congrArg Except.ok htables

/-- **The tables of a session are those that it would have built**, if all that may stand under its
version is like its own network. -/
theorem IsSound.build_eq (hs : s.IsSound parts own) (hfeed : s.feed = b.feed) (hb : b.Known)
    (hkeeps : b.KeepsDates)
    (hown : ∀ feed, own feed b.feed.version.text → ∃ a : Network, a.feed = feed ∧ a.IsLike b) :
    Connections.build b.source b.interchanges = .ok s.tables := by
  rcases hs.tables with hbuilt | ⟨feed, hfeedOwn, t, ht, hrestored⟩
  · have htables := hbuilt.tables
    rw [hfeed] at htables
    exact htables
  · rw [hfeed] at hfeedOwn
    obtain ⟨a, rfl, ha⟩ := hown feed hfeedOwn
    exact hrestored.build_eq hfeed ha hb hkeeps ht

/-! ## Starts that succeed -/

/-- A start on a directory of some version succeeds if the tables can be built at all, and whatever
numbering may stand in the cache is the one that would be built. -/
theorem exists_start (ht' : Connections.build b.source b.interchanges = .ok t')
    (hown : ∀ feed t, own feed b.feed.version.text →
      Connections.build feed.source feed.interchanges = .ok t →
        restoreNumbering b.source t.numbering.records = .ok t'.numbering)
    {cleared : Bool} (hrun : (refresh now b.feed.version.text).run d = (.ok cleared, d'))
    (hd' : d'.IsOf own b.feed.version.text) :
    ∃ s, (start now b.feed ⟨false⟩).run d = (.ok s, d') := by
  have hnumbering : orBuild ((d'.stored? IndexRecord IndexRecord.file).bind fun records =>
      (restoreNumbering b.feed.source records).toOption) (Numbering.build b.feed.source) =
        .ok t'.numbering := by
    rcases hd'.tables with hnone | ⟨feed, hfeed, t, ht, hholds⟩
    · rw [stored?_of_none hnone.indexes]
      exact (Connections.isBuilt_of_build ht').1
    · have hrestore : restoreNumbering b.feed.source t.numbering.records = .ok t'.numbering :=
        hown feed t hfeed ht
      rw [hholds.indexes, Option.bind_some, hrestore]
      rfl
  simp only [Connections.build, Fault.bind_eq_ok_iff] at ht'
  obtain ⟨n, -, stations, hstations, degrees, hdegrees, hbuild⟩ := ht'
  obtain rfl := Except.ok.inj hbuild
  obtain rfl : degrees.numbering = n := Degrees.numbering_of_build hdegrees
  obtain ⟨s, hs⟩ := exists_assemble hnumbering hstations hdegrees
    (d'.stored? DegreeRecord DegreeRecord.file) (d'.stored? ViaRecord ViaRecord.file)
  refine ⟨s, ?_⟩
  rw [run_start, hrun]
  exact Prod.ext hs rfl

/-- The first start on a directory builds the tables, unless the way to the version is refused. -/
theorem exists_start_of_isVacant {folder : Path} (hnow : now < UInt64.size) (hd : d.IsVacant)
    (hpath : d.path? = some folder) (hbars : ¬ Bars d.parts versionFile) (hb : b.Known)
    (hsize : b.routes.size ≤ maxRoutes) :
    ∃ s d', (start now b.feed ⟨false⟩).run d = (.ok s, d') ∧ d'.toPlace = d.toPlace ∧
      d'.IsOf (fun _ _ => False) b.feed.version.text ∧ s.config = ⟨false⟩ ∧ s.IsBuilt ∧
      Connections.build b.source b.interchanges = .ok s.tables := by
  obtain ⟨t, ht⟩ := Network.exists_connections hb hsize
  obtain ⟨_, d', hrefresh, hplace, hof⟩ :=
    hd.refresh_of_path? hnow hpath hbars (fun _ _ => False) b.feed.version.text
  obtain ⟨s, hstart⟩ := exists_start ht (fun _ _ h => h.elim) hrefresh hof
  obtain ⟨_, hstart', hresult⟩ := start_of_refresh hrefresh hof
  obtain ⟨rfl, -⟩ := Prod.mk.inj (hstart'.symm.trans hstart)
  obtain ⟨hfeed, hs⟩ := hresult s rfl
  have hbuilt : s.IsBuilt := hs.tables.resolve_right fun ⟨_, hfalse, _⟩ => hfalse
  refine ⟨s, d', hstart, hplace, hof, hs.config, hbuilt, ?_⟩
  have htables := hbuilt.tables
  rw [hfeed] at htables
  exact htables

end Session
end TransitChanges
