import TransitChanges.Proofs.LeastDegree
import TransitChanges.Vias

/-!
# Every degree has its intermediate routes

The degrees and the intermediate routes behind them are found by separate loops, the one with the
mask of the route one starts from alone, the other with the masks of both ends.  They agree, because
a shortest chain has shortest beginnings (`Chain.isLeast_succ_iff`): the route before the last is
recorded one degree nearer, its date is shared with the first as it lies on the chain, and with the
last as it is linked to it.

* `leadsBy_iff`: the intermediate routes of a pair, as the degrees record them.
* `exists_behind_of_isAt`: a pair recorded at a degree from 2 on has intermediate routes, and they
  are these.
* `exists_behind`: the same in the words of the timetable.
-/

namespace TransitChanges

open Bits Chain

section Maps

variable {α β : Type} [Ord α] [Std.TransOrd α] [Std.LawfulEqOrd α]

/-- A map of a list in the order of its keys lists it again. -/
theorem toList_ofList {entries : List (α × β)}
    (h : entries.Pairwise fun a b => compare a.1 b.1 = .lt) :
    (Std.TreeMap.ofList entries).toList = entries := by
  have hdistinct : entries.Pairwise fun a b => ¬ compare a.1 b.1 = .eq :=
    h.imp fun {a b} hlt heq => by rw [hlt] at heq; cases heq
  have hnodup : entries.Nodup :=
    hdistinct.imp fun {a b} hne heq => hne (by rw [heq]; exact Std.ReflCmp.compare_self)
  have hsubset : entries ⊆ (Std.TreeMap.ofList entries).toList := fun e he =>
    Std.TreeMap.mem_toList_iff_getElem?_eq_some.mpr
      (Std.TreeMap.getElem?_ofList_of_mem Std.ReflCmp.compare_self hdistinct he)
  have hlength : (Std.TreeMap.ofList entries).toList.length ≤ entries.length := by
    rw [Std.TreeMap.length_toList]
    exact Std.TreeMap.size_ofList_le
  have hperm := (List.subperm_of_subset hnodup hsubset).perm_of_length_le hlength
  refine List.Perm.eq_of_pairwise (fun a b _ _ hab hba => ?_)
    Std.TreeMap.ordered_keys_toList h hperm.symm
  have hswap : compare b.1 a.1 = (compare a.1 b.1).swap := Std.OrientedCmp.eq_swap
  rw [hswap, hab] at hba
  cases hba

/-- What a map of a list in the order of its keys holds is the entries of the list. -/
theorem getElem?_ofList_iff {entries : List (α × β)}
    (h : entries.Pairwise fun a b => compare a.1 b.1 = .lt) {a : α} {b : β} :
    (Std.TreeMap.ofList entries)[a]? = some b ↔ (a, b) ∈ entries := by
  rw [← Std.TreeMap.mem_toList_iff_getElem?_eq_some, toList_ofList h]

end Maps

/-! ## The entries of a degree -/

theorem RoutePair.compare_eq_lt_iff {p q : RoutePair} : compare p q = .lt ↔
    p.first < q.first ∨ p.first = q.first ∧ p.second < q.second := by
  rw [← Nat.compare_eq_lt, ← Nat.compare_eq_lt, ← Nat.compare_eq_eq]
  exact Ordering.then_eq_lt

theorem Connection.compare_eq_lt_iff {c d : Connection} : compare c d = .lt ↔
    c.degree < d.degree ∨ c.degree = d.degree ∧ compare c.pair d.pair = .lt := by
  rw [← Nat.compare_eq_lt, ← Nat.compare_eq_eq]
  exact Ordering.then_eq_lt

namespace Vias

theorem mem_degrees {d : Nat} : d ∈ degrees ↔ 2 ≤ d ∧ d ≤ maxDegree := by
  rw [degrees, List.mem_range'_1, maxDegree]
  omega

theorem mem_entriesAt {shared origins : BitMatrix} {t : Degrees} {d : Nat} {c : Connection}
    {vias : Bitmap} : (c, vias) ∈ entriesAt shared origins t d ↔
      c.degree = d ∧ t.isAt d c.pair = true ∧ vias = between (nearer shared t d) origins c.pair ∧
        vias.isEmpty = false := by
  simp only [entriesAt, List.mem_filterMap]
  constructor
  · rintro ⟨⟨i, j⟩, hmem, hentry⟩
    dsimp only at hentry
    split at hentry
    · cases hentry
    · next hsome =>
      cases hentry
      exact ⟨rfl, BitMatrix.mem_positions.mp hmem, rfl, by simpa using hsome⟩
  · rintro ⟨rfl, hat, rfl, hsome⟩
    refine ⟨(c.pair.first, c.pair.second), BitMatrix.mem_positions.mpr hat, ?_⟩
    dsimp only
    rw [if_neg (by rw [hsome]; exact Bool.false_ne_true)]

/-- The entries are listed in the order of their connections, so that each has one at most. -/
theorem pairwise_entries (shared origins : BitMatrix) (t : Degrees) :
    (degrees.flatMap (entriesAt shared origins t)).Pairwise
      fun a b => compare a.1 b.1 = .lt := by
  refine List.pairwise_flatMap.mpr ⟨fun d _ => ?_, ?_⟩
  · refine List.Pairwise.filterMap _ ?_ (t.level d).pairwise_positions
    rintro ⟨i, j⟩ ⟨k, l⟩ hlt a ha b hb
    dsimp only at ha hb
    split at ha <;> cases ha
    split at hb <;> cases hb
    exact Connection.compare_eq_lt_iff.mpr (.inr ⟨rfl, RoutePair.compare_eq_lt_iff.mpr hlt⟩)
  · refine List.Pairwise.imp (fun {d e} hlt x hx y hy => ?_) List.pairwise_lt_range'
    rw [← (mem_entriesAt.mp hx).1, ← (mem_entriesAt.mp hy).1] at hlt
    exact Connection.compare_eq_lt_iff.mpr (.inl hlt)

/-- The connections that have intermediate routes, and which these are. -/
theorem getElem?_build_iff {shared : BitMatrix} {t : Degrees} {c : Connection} {vias : Bitmap} :
    (build shared t).routes[c]? = some vias ↔ (2 ≤ c.degree ∧ c.degree ≤ maxDegree) ∧
      t.isAt c.degree c.pair = true ∧
        vias = between (nearer shared t c.degree) (origins shared t) c.pair ∧
          vias.isEmpty = false := by
  rw [build, getElem?_ofList_iff (pairwise_entries shared _ t), List.mem_flatMap]
  simp only [mem_degrees, mem_entriesAt]
  constructor
  · rintro ⟨d, hd, rfl, h⟩
    exact ⟨hd, h⟩
  · rintro ⟨hd, h⟩
    exact ⟨c.degree, hd, rfl, h⟩

/-- Intermediate routes are told exactly where there are some. -/
theorem behind_eq_ok_iff {v : Vias} {n : Numbering} {c : Connection} {vias : Bitmap} :
    v.behind n c = .ok vias ↔
      (2 ≤ c.degree ∧ c.degree ≤ maxDegree) ∧ v.routes[c]? = some vias := by
  unfold behind
  split
  · next hdegree =>
    rw [and_iff_right hdegree]
    cases v.routes[c]? with
    | some _ => simp
    | none => cases n.routesAt c.pair <;> simp [bind, Except.bind]
  · next hdegree => simp [hdegree]

/-! ## What the entries say -/

variable {n : Numbering} {interchanges : List Interchange} {t : Degrees} {d i j : Nat}

section Recorded

variable (hn : n.NamesApart) (ht : Degrees.build n n.sharedDates interchanges = .ok t)

include hn ht in
/-- A pair is reached by way of the routes that are recorded one change nearer, and from which its
second route is recorded at one change. -/
theorem leadsBy_iff {via : Nat} (hpos : 1 ≤ d) (hle : d ≤ maxDegree) :
    leadsBy n.sharedDates t ⟨d + 1, i, j⟩ via = true ↔
      t.isAt d ⟨i, via⟩ = true ∧ t.isAt 1 ⟨via, j⟩ = true := by
  obtain ⟨direct, rfl, hdirect, -⟩ := Degrees.exists_isDirect_of_build hn ht
  simp only [leadsBy, Bool.and_eq_true, Nat.add_sub_cancel, and_assoc, Degrees.isAt]
  constructor
  · rintro ⟨hnear, -, hlast, -⟩
    exact ⟨hnear, hlast⟩
  · rintro ⟨hnear, hlast⟩
    refine ⟨hnear, ?_, hlast, hdirect.shares hlast⟩
    -- the last step of a chain that is not empty leads to a route that shares a date
    obtain ⟨k, rfl⟩ := Nat.exists_eq_add_of_le' hpos
    have hleast := (Degrees.get_level_ofDirect n hdirect hpos hle i via).mp hnear
    obtain ⟨_, -, -, hshared⟩ := succ_iff.mp hleast.1
    exact hshared

include hn ht in
/-- A pair recorded at a degree from 2 on is reached by way of some route. -/
theorem exists_via (hpos : 1 ≤ d) (hle : d + 1 ≤ maxDegree) (hat : t.isAt (d + 1) ⟨i, j⟩ = true) :
    ∃ via, t.isAt d ⟨i, via⟩ = true ∧ t.isAt 1 ⟨via, j⟩ = true := by
  obtain ⟨direct, rfl, hdirect, -⟩ := Degrees.exists_isDirect_of_build hn ht
  have hleast := (Degrees.get_level_ofDirect n hdirect (Nat.succ_pos d) hle i j).mp hat
  obtain ⟨⟨via, hnear, hstep⟩, -⟩ := isLeast_succ_iff.mp hleast
  refine ⟨via, ?_, hstep.1⟩
  exact (Degrees.get_level_ofDirect n hdirect hpos (by omega) i via).mpr hnear

include hn ht in
/-- A route at one change has an index. -/
theorem lt_size_of_isAt_one (hat : t.isAt 1 ⟨i, j⟩ = true) : j < (t.level 1).size := by
  obtain ⟨direct, rfl, hdirect, -⟩ := Degrees.exists_isDirect_of_build hn ht
  exact hdirect.lt_size hat

include hn ht in
/-- **A pair recorded at a degree from 2 on has intermediate routes.** -/
theorem exists_behind_of_isAt (hpos : 1 ≤ d) (hle : d + 1 ≤ maxDegree)
    (hat : t.isAt (d + 1) ⟨i, j⟩ = true) :
    ∃ vias, (build n.sharedDates t).behind n ⟨d + 1, i, j⟩ = .ok vias ∧ vias.isEmpty = false ∧
      ∀ via, vias.get via = true ↔ t.isAt d ⟨i, via⟩ = true ∧ t.isAt 1 ⟨via, j⟩ = true := by
  obtain ⟨via, hvia⟩ := exists_via hn ht hpos hle hat
  have hget (k : Nat) : (between (nearer n.sharedDates t (d + 1)) (origins n.sharedDates t)
      ⟨i, j⟩).get k = true ↔ t.isAt d ⟨i, k⟩ = true ∧ t.isAt 1 ⟨k, j⟩ = true := by
    rw [get_between (c := ⟨d + 1, i, j⟩) (lt_size_of_isAt_one hn ht hvia.2),
      leadsBy_iff hn ht hpos (by omega)]
  have hsome : (between (nearer n.sharedDates t (d + 1)) (origins n.sharedDates t)
      ⟨i, j⟩).isEmpty = false := by
    rw [← Bool.not_eq_true, Bitmap.isEmpty_iff]
    intro hnone
    rw [← hget via, hnone] at hvia
    cases hvia
  have hdegree : 2 ≤ d + 1 ∧ d + 1 ≤ maxDegree := ⟨by omega, hle⟩
  refine ⟨_, behind_eq_ok_iff.mpr ⟨hdegree, ?_⟩, hsome, hget⟩
  exact getElem?_build_iff.mpr ⟨hdegree, hat, rfl, hsome⟩

end Recorded

/-- The intermediate routes of a recorded pair are those that are one change nearer and linked to its
second. -/
theorem exists_behind (hn : n.NamesKept) (ht : Degrees.build n n.sharedDates interchanges = .ok t)
    (hpos : 1 ≤ d) (hle : d + 1 ≤ maxDegree) (hat : t.isAt (d + 1) ⟨i, j⟩ = true) :
    ∃ vias, (build n.sharedDates t).behind n ⟨d + 1, i, j⟩ = .ok vias ∧
      ∀ via, vias.get via = true ↔
        IsLeast (n.changeCounts (n.Linked interchanges) i via) d ∧
          n.Linked interchanges via j := by
  obtain ⟨vias, hbehind, -, hget⟩ := exists_behind_of_isAt hn.apart ht hpos hle hat
  refine ⟨vias, hbehind, fun via => ?_⟩
  rw [hget, Degrees.isAt, Degrees.isAt, Degrees.get_level_iff hn ht hpos (by omega),
    Degrees.get_level_one_iff hn ht]

end Vias
end TransitChanges
