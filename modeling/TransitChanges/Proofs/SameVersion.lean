import TransitChanges.Proofs.Restoring
import TransitChanges.Version

/-!
# What a version tells

The tables of a network are recognised by its version, which records the routes with their dates and
of the interchanges only the names that call there.  But the direct changes are found from the
routes of the calls, and a call keeps its route as it was when the call was recorded.  So two
networks of one version can have other links, if a route was added again with other dates after
calls of it, and then they have other tables (`AddedAgain.degrees_differ`).

Everything else that the tables are made from is told by the version.  Two numberings of one version
give the same names the same indexes (`Numbering.Alike`), and of two networks whose calls keep the
dates of their routes (`Network.KeepsDates`) all tables are the same.

* `Numbering.alike_of_build`: numberings of one version.
* `Network.tables_eq_of_linked`: degrees and intermediate routes follow from the links.
* `Network.tables_eq_of_keepsDates`: networks that keep the dates of their routes.
* `Network.tables_of_version_eq`: what networks of one version have in common.
-/

namespace TransitChanges

open Bits

/-! ## Numberings of one version -/

namespace Numbering

variable {n n' : Numbering}

/-- Two numberings give the same names the same indexes, of routes that run on the same dates. -/
structure Alike (n n' : Numbering) : Prop where
  indexes_eq : n.indexes = n'.indexes
  records_eq : n.records = n'.records
  size_eq : n.size = n'.size
  dates {index : Nat} {r s : Route} : n.routes[index]? = some r → n'.routes[index]? = some s →
    r.runsAlike s = true

theorem isSquare_sharedDates (n : Numbering) : n.sharedDates.IsSquare := by
  refine BitMatrix.isSquare_ofRows fun i _ => ?_
  split
  · next r _ =>
    rw [Bitmap.size_insert, sharingFrom_sharingRows]
    rfl
  · rfl

namespace Alike

variable (h : Alike n n')
include h

theorem indexOf_eq (id : RouteId) : n.indexOf id = n'.indexOf id := by
  rw [indexOf, indexOf, h.indexes_eq]

theorem sharesDates_eq (i j : Nat) : n.sharesDates i j = n'.sharesDates i j := by
  have hnone {k : Nat} : n.routes[k]? = none ↔ n'.routes[k]? = none := by
    rw [Array.getElem?_eq_none_iff, Array.getElem?_eq_none_iff, ← size, ← size, h.size_eq]
  unfold sharesDates
  cases hi : n.routes[i]? with
  | none => rw [hnone.mp hi]
  | some r =>
    cases hi' : n'.routes[i]? with
    | none => rw [hnone.mpr hi'] at hi; cases hi
    | some r' =>
      cases hj : n.routes[j]? with
      | none => rw [hnone.mp hj]
      | some s =>
        cases hj' : n'.routes[j]? with
        | none => rw [hnone.mpr hj'] at hj; cases hj
        | some s' =>
          dsimp only
          rw [Route.sharesDateWith_of_runsAlike (h.dates hi hi'), Route.sharesDateWith_comm r',
            Route.sharesDateWith_of_runsAlike (h.dates hj hj'), Route.sharesDateWith_comm s']

theorem sharedDates_eq : n.sharedDates = n'.sharedDates := by
  refine n.isSquare_sharedDates.ext_get n'.isSquare_sharedDates h.size_eq fun i j => ?_
  rw [get_sharedDates, get_sharedDates, h.sharesDates_eq]

end Alike

theorem indexNames_congr {routes routes' : List Route}
    (h : routes.map Route.id = routes'.map Route.id) (next : Nat) (map : Std.TreeMap RouteId Nat) :
    indexNames next map routes = indexNames next map routes' := by
  induction routes generalizing routes' next map with
  | nil =>
    rw [List.map_nil, eq_comm, List.map_eq_nil_iff] at h
    rw [h]
  | cons r routes ih =>
    cases routes' with
    | nil => cases h
    | cons r' routes' =>
      rw [List.map_cons, List.map_cons, List.cons.injEq] at h
      rw [indexNames, indexNames, h.1, ih h.2]

/-- Routes of which the same is recorded are numbered alike. -/
theorem alike_of_build {source source' : RouteSource}
    {interchanges interchanges' : List Interchange}
    (h : (Version.of source.routes interchanges).routes =
      (Version.of source'.routes interchanges').routes)
    (hn : build source = .ok n) (hn' : build source' = .ok n') : Alike n n' := by
  have hroutes : n.routes.toList.map (fun r => RouteVersion.mk r.id r.mode r.dates r.days) =
      n'.routes.toList.map fun r => ⟨r.id, r.mode, r.dates, r.days⟩ := by
    rw [eq_ofSorted_of_build hn, eq_ofSorted_of_build hn']
    exact h
  have hids : n.routes.toList.map Route.id = n'.routes.toList.map Route.id := by
    simpa [Function.comp_def] using congrArg (List.map RouteVersion.id) hroutes
  have hrecords (n : Numbering) : n.records =
      (n.routes.toList.map Route.id).zipIdx.map fun (id, index) => ⟨index, id⟩ := by
    rw [records, List.zipIdx_map, List.map_map]
    rfl
  constructor
  · rw [eq_ofSorted_of_build hn, eq_ofSorted_of_build hn'] at hids ⊢
    exact indexNames_congr hids 0 ∅
  · rw [hrecords n, hrecords n', hids]
  · simpa [size] using congrArg List.length hids
  · intro index r s hr hs
    have hrow := congrArg (·[index]?) hroutes
    simp only [List.getElem?_map, Array.getElem?_toList, hr, hs, Option.map_some, Option.some.injEq,
      RouteVersion.mk.injEq] at hrow
    obtain ⟨-, -, hdates, hdays⟩ := hrow
    rw [Route.runsAlike, hdates, hdays]
    simp

end Numbering

/-! ## Degrees from the same links -/

namespace Degrees

variable {n n' : Numbering} {interchanges interchanges' : List Interchange} {t t' : Degrees}

theorem eq_of_levels_eq (hnumbering : t.numbering = t'.numbering)
    (hlevels : t.levels = t'.levels) : t = t' := by
  cases t
  cases t'
  cases hnumbering
  cases hlevels
  rfl

/-- The degrees follow from the links. -/
theorem levels_eq_of_linked (h : n.Alike n')
    (ht : build n n.sharedDates interchanges = .ok t)
    (ht' : build n' n'.sharedDates interchanges' = .ok t')
    (hlinked : ∀ i j, n.Linked interchanges i j ↔ n'.Linked interchanges' i j) :
    t.levels = t'.levels := by
  have hsquares := squares_of_build ht
  have hsquares' := squares_of_build ht'
  obtain ⟨direct, rfl, hsize, hget⟩ := exists_direct_of_build ht
  obtain ⟨direct', rfl, hsize', hget'⟩ := exists_direct_of_build ht'
  have hdirect : direct = direct' := by
    refine (hsquares direct List.mem_cons_self).2.ext_get
      (hsquares' direct' List.mem_cons_self).2 (by rw [hsize, hsize', h.size_eq]) fun i j => ?_
    rw [Bool.eq_iff_iff, hget, hget', Numbering.get_sharedDates, Numbering.get_sharedDates,
      ← Numbering.Linked, ← Numbering.Linked, hlinked, h.size_eq]
  rw [hdirect, h.sharedDates_eq]
  rfl

/-- The links can be told from the records of the degrees. -/
theorem linked_iff_of_records_eq (hn : n.NamesKept) (hn' : n'.NamesKept) (h : n.size = n'.size)
    (ht : build n n.sharedDates interchanges = .ok t)
    (ht' : build n' n'.sharedDates interchanges' = .ok t') (hrecords : t.records = t'.records)
    (i j : Nat) : n.Linked interchanges i j ↔ n'.Linked interchanges' i j := by
  obtain rfl := numbering_of_build ht
  obtain rfl := numbering_of_build ht'
  have hrestored := ofRecords_records (n := t.numbering) (squares_of_build ht) rfl
  rw [hrecords, ofRecords_records (squares_of_build ht') h] at hrestored
  have hlevels : t.levels = t'.levels := (congrArg levels (Except.ok.inj hrestored)).symm
  have hlevel : t.level 1 = t'.level 1 := by
    rw [level, level, hlevels, h]
  rw [← get_level_one_iff hn ht, ← get_level_one_iff hn' ht', hlevel]

end Degrees

theorem Vias.build_congr {shared : BitMatrix} {t t' : Degrees} (hlevels : t.levels = t'.levels)
    (hsize : t.size = t'.size) : build shared t = build shared t' := by
  have hlevel (d : Nat) : t.level d = t'.level d := by
    rw [Degrees.level, Degrees.level, hlevels, ← Degrees.size, hsize, Degrees.size]
  have hentries (origins : BitMatrix) :
      entriesAt shared origins t = entriesAt shared origins t' := by
    funext d
    unfold entriesAt nearer
    rw [hlevel, hlevel]
  simp only [build, origins, hlevel, hentries, hsize]

/-! ## Networks of one version -/

theorem Route.runsAlike_iff {r s : Route} :
    r.runsAlike s = true ↔ r.dates = s.dates ∧ r.days = s.days := by
  rw [runsAlike, Bool.and_eq_true, decide_eq_true_eq, decide_eq_true_eq]

theorem Interchange.joins_congr {d d' p p' : Route} (hd : d.id = d'.id) (hp : p.id = p'.id)
    (hdates : d.runsAlike d' = true) (hpickup : p.runsAlike p' = true) :
    joins d p = joins d' p' := by
  rw [joins, joins, hd, hp, Route.sharesDateWith_of_runsAlike hpickup, Route.sharesDateWith_comm p',
    Route.sharesDateWith_of_runsAlike hdates, Route.sharesDateWith_comm p']

theorem InterchangeVersion.mem_sortedNames {routes : List Route} {id : RouteId} :
    id ∈ sortedNames routes ↔ ∃ r ∈ routes, r.id = id := by
  rw [sortedNames, List.mem_mergeSort, List.mem_map]

namespace Network

variable {a b : Network}

/-- Every call is of a route that runs on the same dates as the one that is held under its name. -/
def KeepsDates (net : Network) : Prop :=
  ∀ c ∈ net.calls, ∃ r, net.routes[c.route.id]? = some r ∧ r.runsAlike c.route = true

theorem Settled.keepsDates {net : Network} (h : net.Settled) : net.KeepsDates :=
  fun c hc => ⟨c.route, h c hc, Route.runsAlike_iff.mpr ⟨rfl, rfl⟩⟩

theorem size_eq_of_version (h : a.feed.version = b.feed.version) :
    a.routes.size = b.routes.size := by
  have hroutes := congrArg (fun v : Version => v.routes.length) h
  simpa [Feed.version, Version.of, feed, length_source] using hroutes

/-- A name stands for routes that run on the same dates. -/
theorem exists_runsAlike (ha : a.Known) (hb : b.Known) (h : a.feed.version = b.feed.version)
    {id : RouteId} {r : Route} (hr : a.routes[id]? = some r) :
    ∃ s, b.routes[id]? = some s ∧ r.runsAlike s = true := by
  have hroutes := congrArg Version.routes h
  have hmem : RouteVersion.mk r.id r.mode r.dates r.days ∈ a.feed.version.routes := by
    refine List.mem_map.mpr ⟨r, List.mem_mergeSort.mpr ((mem_source_iff ha).mpr ?_), rfl⟩
    rw [Holds, ha.id_eq hr]
    exact hr
  rw [hroutes] at hmem
  obtain ⟨s, hs, heq⟩ := List.mem_map.mp hmem
  rw [RouteVersion.mk.injEq] at heq
  obtain ⟨hid, -, hdates, hdays⟩ := heq
  refine ⟨s, ?_, Route.runsAlike_iff.mpr ⟨hdates.symm, hdays.symm⟩⟩
  have hheld := (mem_source_iff hb).mp (List.mem_mergeSort.mp hs)
  rw [Holds, hid, ha.id_eq hr] at hheld
  exact hheld

/-- An interchange stands for one of which the same is recorded. -/
theorem exists_interchange (h : a.feed.version = b.feed.version) {i : Interchange}
    (hi : i ∈ a.interchanges) :
    ∃ i' ∈ b.interchanges, InterchangeVersion.of i' = InterchangeVersion.of i := by
  have hmem : InterchangeVersion.of i ∈ a.feed.version.interchanges :=
    List.mem_mergeSort.mpr (List.mem_map.mpr ⟨i, hi, rfl⟩)
  rw [h] at hmem
  exact List.mem_map.mp (List.mem_mergeSort.mp hmem)

/-- Routes of one name at interchanges of two networks of one version run on the same dates. -/
theorem runsAlike_of_id_eq (ha : a.Known) (hb : b.Known) (hka : a.KeepsDates) (hkb : b.KeepsDates)
    (h : a.feed.version = b.feed.version) {c d : Call} (hc : c ∈ a.calls) (hd : d ∈ b.calls)
    (hid : c.route.id = d.route.id) : c.route.runsAlike d.route = true := by
  obtain ⟨r, hr, hrc⟩ := hka c hc
  obtain ⟨s, hs, hsd⟩ := hkb d hd
  obtain ⟨s', hs', hrs⟩ := exists_runsAlike ha hb h hr
  rw [hid, hs, Option.some.injEq] at hs'
  subst hs'
  rw [Route.runsAlike_iff] at hrc hsd hrs ⊢
  exact ⟨hrc.1.symm.trans (hrs.1.trans hsd.1), hrc.2.symm.trans (hrs.2.trans hsd.2)⟩

theorem linked_of_linked (ha : a.Known) (hb : b.Known) (hka : a.KeepsDates) (hkb : b.KeepsDates)
    (h : a.feed.version = b.feed.version) {n n' : Numbering} (halike : n.Alike n') {i j : Nat}
    (hlinked : n.Linked a.interchanges i j) : n'.Linked b.interchanges i j := by
  obtain ⟨⟨x, hx, d, hd, p, hp, hdi, hpj, hjoins⟩, hshared⟩ := hlinked
  obtain ⟨y, hy, hxy⟩ := exists_interchange h hx
  rw [InterchangeVersion.of, InterchangeVersion.of, InterchangeVersion.mk.injEq] at hxy
  obtain ⟨-, hdropoffs, hpickups⟩ := hxy
  have hd' := InterchangeVersion.mem_sortedNames.mpr ⟨d, hd, rfl⟩
  have hp' := InterchangeVersion.mem_sortedNames.mpr ⟨p, hp, rfl⟩
  rw [← hdropoffs] at hd'
  rw [← hpickups] at hp'
  obtain ⟨d', hd', hdid⟩ := InterchangeVersion.mem_sortedNames.mp hd'
  obtain ⟨p', hp', hpid⟩ := InterchangeVersion.mem_sortedNames.mp hp'
  have halikeOf {r s : Route} (hr : r ∈ x.dropoffs ∨ r ∈ x.pickups)
      (hs : s ∈ y.dropoffs ∨ s ∈ y.pickups) (hid : s.id = r.id) : r.runsAlike s = true := by
    obtain ⟨c, hc, rfl⟩ := exists_call_of_mem hx hr
    obtain ⟨c', hc', rfl⟩ := exists_call_of_mem hy hs
    exact runsAlike_of_id_eq ha hb hka hkb h hc hc' hid.symm
  refine ⟨⟨y, hy, d', hd', p', hp', ?_, ?_, ?_⟩, ?_⟩
  · rw [hdid, ← halike.indexOf_eq, hdi]
  · rw [hpid, ← halike.indexOf_eq, hpj]
  · rw [← hjoins]
    exact (Interchange.joins_congr hdid.symm hpid.symm (halikeOf (.inl hd) (.inl hd') hdid)
      (halikeOf (.inr hp) (.inr hp') hpid)).symm
  · rw [← halike.sharesDates_eq]
    exact hshared

/-! ## Tables of one version -/

variable {t t' : Connections}

section Tables

variable (h : a.feed.version = b.feed.version)
  (ht : Connections.build a.source a.interchanges = .ok t)
  (ht' : Connections.build b.source b.interchanges = .ok t')
include h ht ht'

theorem alike_of_version : t.numbering.Alike t'.numbering :=
  Numbering.alike_of_build (congrArg Version.routes h) (Connections.isBuilt_of_build ht).1
    (Connections.isBuilt_of_build ht').1

/-- Tables of networks of one version differ only if their links do. -/
theorem tables_eq_of_linked (hlinked : ∀ i j,
      t.numbering.Linked a.interchanges i j ↔ t'.numbering.Linked b.interchanges i j) :
    t.degrees.levels = t'.degrees.levels ∧ t.vias = t'.vias := by
  have halike := alike_of_version h ht ht'
  have hbuilt := (Connections.isBuilt_of_build ht).2
  have hbuilt' := (Connections.isBuilt_of_build ht').2
  have hlevels := Degrees.levels_eq_of_linked halike hbuilt.degrees hbuilt'.degrees hlinked
  refine ⟨hlevels, ?_⟩
  rw [hbuilt.vias, hbuilt'.vias, halike.sharedDates_eq]
  exact Vias.build_congr hlevels halike.size_eq

/-- Networks of one version that keep the dates of their routes have the same tables. -/
theorem tables_eq_of_keepsDates (ha : a.Known) (hb : b.Known) (hka : a.KeepsDates)
    (hkb : b.KeepsDates) :
    t.degrees.levels = t'.degrees.levels ∧ t.vias = t'.vias := by
  have halike := alike_of_version h ht ht'
  have halike' := alike_of_version h.symm ht' ht
  exact tables_eq_of_linked h ht ht' fun i j =>
    ⟨linked_of_linked ha hb hka hkb h halike, linked_of_linked hb ha hkb hka h.symm halike'⟩

/-- Networks of one version have the same records of degrees if they have the same links. -/
theorem degreeRecords_eq_iff_linked : t.degrees.records = t'.degrees.records ↔ ∀ i j,
    t.numbering.Linked a.interchanges i j ↔ t'.numbering.Linked b.interchanges i j := by
  have hbuilt := (Connections.isBuilt_of_build ht).2
  have hbuilt' := (Connections.isBuilt_of_build ht').2
  constructor
  · exact Degrees.linked_iff_of_records_eq hbuilt.kept hbuilt'.kept
      (alike_of_version h ht ht').size_eq hbuilt.degrees hbuilt'.degrees
  · intro hlinked
    rw [Degrees.records, Degrees.records, (tables_eq_of_linked h ht ht' hlinked).1]

end Tables

/-- Tables of networks of one version are built alike or refused alike. -/
theorem build_eq_error_iff (ha : a.Known) (hb : b.Known) (h : a.feed.version = b.feed.version)
    {fault : Fault} : Connections.build a.source a.interchanges = .error fault ↔
      Connections.build b.source b.interchanges = .error fault := by
  have hsize := size_eq_of_version h
  by_cases hle : a.routes.size ≤ maxRoutes
  · obtain ⟨t, ht⟩ := exists_connections ha hle
    obtain ⟨t', ht'⟩ := exists_connections hb (hsize ▸ hle)
    rw [ht, ht']
    simp
  · have herror (net : Network) (hnet : ¬ net.routes.size ≤ maxRoutes) :
        Connections.build net.source net.interchanges =
          .error (.tooManyRoutes net.routes.size maxRoutes) := by
      rw [← length_source] at hnet ⊢
      rw [Connections.build, Numbering.build, if_neg hnet]
      rfl
    rw [herror a hle, herror b (hsize ▸ hle), hsize]

/-- **What a version tells of the tables.**  Networks of one version are refused alike, and those
that are not have the same numbering.  Their degrees are the same exactly if they have the same
links, and then so are their intermediate routes; a version does not tell the links, since the
routes of calls may run on other dates than those of the network.  Where no call does, it tells
all. -/
theorem tables_of_version_eq {edits edits' : List Edit}
    (h : (ofEdits edits).feed.version = (ofEdits edits').feed.version) :
    (∀ fault,
      Connections.build (ofEdits edits).source (ofEdits edits).interchanges = .error fault ↔
      Connections.build (ofEdits edits').source (ofEdits edits').interchanges = .error fault) ∧
    ∀ t t',
      Connections.build (ofEdits edits).source (ofEdits edits).interchanges = .ok t →
      Connections.build (ofEdits edits').source (ofEdits edits').interchanges = .ok t' →
      t.numbering.records = t'.numbering.records ∧
      (t.degrees.records = t'.degrees.records ↔
        ∀ i j, t.numbering.Linked (ofEdits edits).interchanges i j ↔
          t'.numbering.Linked (ofEdits edits').interchanges i j) ∧
      (t.degrees.records = t'.degrees.records → t.vias.records = t'.vias.records) ∧
      ((ofEdits edits).KeepsDates → (ofEdits edits').KeepsDates →
        t.degrees.records = t'.degrees.records) := by
  have ha := known_ofEdits edits
  have hb := known_ofEdits edits'
  refine ⟨fun fault => build_eq_error_iff ha hb h, fun t t' ht ht' => ?_⟩
  have hlinked := degreeRecords_eq_iff_linked h ht ht'
  refine ⟨(alike_of_version h ht ht').records_eq, hlinked, fun heq => ?_, fun hka hkb => ?_⟩
  · rw [(tables_eq_of_linked h ht ht' (hlinked.mp heq)).2]
  · rw [Degrees.records, Degrees.records, (tables_eq_of_keepsDates h ht ht' ha hb hka hkb).1]

end Network

/-! ## A route that is added again -/

namespace AddedAgain

open Calendar SampleCity

/-- A tram line that runs on some dates. -/
def line (name : String) (dates : DateRange) : Route :=
  ⟨named name, name, .tram, dates, .all⟩

/-- Two lines meet at `S`, and afterwards the first of them is added again with more dates. -/
def late : List Edit := [
  .route (line "A" (.single newYear)),
  .route (line "B" (.single date)),
  .stop "S" "A",
  .stop "S" "B",
  .route (line "A" year)]

/-- The same lines, with all their dates from the start. -/
def early : List Edit := [
  .route (line "A" year),
  .route (line "B" (.single date)),
  .stop "S" "A",
  .stop "S" "B"]

/-- The numbering of either network. -/
def numbering : Numbering :=
  .ofSorted [line "A" year, line "B" (.single date)]

theorem version_late : (Network.ofEdits late).feed.version = (Network.ofEdits early).feed.version :=
  rfl

theorem build_numbering {net : Network}
    (h : net.source.routes = [line "A" year, line "B" (.single date)]) :
    Numbering.build net.source = .ok numbering := by
  rw [Numbering.build_of_le (by rw [h]; decide), h, List.mergeSort_of_pairwise (by decide)]
  rfl

theorem directChanges_late : numbering.directChanges (Network.ofEdits late).interchanges = .ok [] :=
  rfl

theorem directChanges_early :
    numbering.directChanges (Network.ofEdits early).interchanges = .ok [(0, 1), (1, 0)] :=
  rfl

/-- **The networks have one version and other degrees.** -/
theorem degrees_differ :
    (Network.ofEdits late).feed.version = (Network.ofEdits early).feed.version ∧
    ∃ t t',
      Connections.build (Network.ofEdits late).source (Network.ofEdits late).interchanges = .ok t ∧
      Connections.build (Network.ofEdits early).source (Network.ofEdits early).interchanges =
        .ok t' ∧
      t.numbering.records = t'.numbering.records ∧ t.degrees.records ≠ t'.degrees.records := by
  obtain ⟨t, ht⟩ := Network.exists_connections (Network.known_ofEdits late) (by decide)
  obtain ⟨t', ht'⟩ := Network.exists_connections (Network.known_ofEdits early) (by decide)
  obtain ⟨hnumbering, hdegrees, -⟩ := (Network.tables_of_version_eq version_late).2 t t' ht ht'
  refine ⟨version_late, t, t', ht, ht', hnumbering, fun heq => ?_⟩
  have hn : t.numbering = numbering :=
    Except.ok.inj ((Connections.isBuilt_of_build ht).1.symm.trans (build_numbering rfl))
  have hn' : t'.numbering = numbering :=
    Except.ok.inj ((Connections.isBuilt_of_build ht').1.symm.trans (build_numbering rfl))
  have hlinked := hdegrees.mp heq 0 1
  rw [hn, hn', Numbering.Linked, Numbering.Linked,
    ← Numbering.mem_directChanges_iff directChanges_late,
    ← Numbering.mem_directChanges_iff directChanges_early] at hlinked
  exact absurd (hlinked.mpr ⟨List.mem_cons_self, rfl⟩).1 List.not_mem_nil

end AddedAgain
end TransitChanges
