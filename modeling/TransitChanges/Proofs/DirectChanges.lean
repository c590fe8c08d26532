import Mathlib.Data.List.Basic
import TransitChanges.Degrees
import TransitChanges.Proofs.Numbering

/-!
# Direct changes

The tables read the interchanges by nested loops over the routes that set down and the routes that
pick up.  Here the loops are replaced by what they look for: two routes *meet* at an interchange if
the one sets down there, the other picks up, they have different names and could run on one date.
Which indexes meet is a matter of the names alone, so the routes at an interchange need not be the
ones that were numbered.

* `mem_directChanges_iff`: the direct changes are the pairs that meet somewhere.
* `exists_directChanges`: they are found wherever the routes at the interchanges are numbered.
* `ne_of_meet`: no route meets itself.
-/

namespace TransitChanges

namespace Interchange

/-- A direct change needs different names and a date in common. -/
theorem joins_iff {dropoff pickup : Route} : joins dropoff pickup = true ↔
    dropoff.id ≠ pickup.id ∧ pickup.sharesDateWith dropoff = true := by
  rw [joins, Bool.and_eq_true, decide_eq_true_eq]

end Interchange

namespace Numbering

variable (n : Numbering)

/-- Two indexed routes meet at an interchange: one can change there from the first to the
second. -/
def MeetAt (interchange : Interchange) (first second : Nat) : Prop :=
  ∃ dropoff ∈ interchange.dropoffs, ∃ pickup ∈ interchange.pickups,
    n.indexOf dropoff.id = .ok first ∧ n.indexOf pickup.id = .ok second ∧
      Interchange.joins dropoff pickup = true

/-- Two indexed routes meet at one of some interchanges. -/
def Meet (interchanges : List Interchange) (first second : Nat) : Prop :=
  ∃ interchange ∈ interchanges, n.MeetAt interchange first second

/-- The routes that set down or pick up at an interchange are all numbered. -/
def Covers (interchange : Interchange) : Prop :=
  ∀ route, route ∈ interchange.dropoffs ∨ route ∈ interchange.pickups →
    ∃ index, n.indexOf route.id = .ok index

variable {n}

/-! ## What the loops find -/

theorem mem_targetsOf_iff {dropoff : Route} {pickups : List (Route × Except Fault Nat)}
    {targets : List Nat} (h : targetsOf dropoff pickups = .ok targets) {second : Nat} :
    second ∈ targets ↔
      ∃ p ∈ pickups, p.2 = .ok second ∧ Interchange.joins dropoff p.1 = true := by
  induction pickups generalizing targets with
  | nil =>
    cases h
    simp
  | cons p pickups ih =>
    obtain ⟨pickup, index⟩ := p
    unfold targetsOf at h
    split at h
    · next hjoins =>
      simp only [Fault.bind_eq_ok_iff] at h
      obtain ⟨i, rfl, rest, hrest, h⟩ := h
      cases h
      rw [List.mem_cons, ih hrest, List.exists_mem_cons_iff]
      refine or_congr ?_ Iff.rfl
      simp [hjoins, eq_comm]
    · next hjoins =>
      rw [ih h, List.exists_mem_cons_iff]
      simp [hjoins]

theorem mem_changesAmong_iff {pickups : List (Route × Except Fault Nat)} {dropoffs : List Route}
    {changes : List (Nat × Nat)} (h : n.changesAmong pickups dropoffs = .ok changes)
    {first second : Nat} :
    (first, second) ∈ changes ↔
      ∃ dropoff ∈ dropoffs, ∃ p ∈ pickups, n.indexOf dropoff.id = .ok first ∧
        p.2 = .ok second ∧ Interchange.joins dropoff p.1 = true := by
  induction dropoffs generalizing changes with
  | nil =>
    cases h
    simp
  | cons dropoff dropoffs ih =>
    simp only [changesAmong, Fault.bind_eq_ok_iff] at h
    obtain ⟨index, hindex, targets, htargets, rest, hrest, h⟩ := h
    cases h
    have hhere : (first, second) ∈ targets.map (fun target => (index, target)) ↔
        index = first ∧ second ∈ targets := by
      rw [List.mem_map]
      constructor
      · rintro ⟨target, hmem, heq⟩
        obtain ⟨rfl, rfl⟩ := Prod.mk.inj heq
        exact ⟨rfl, hmem⟩
      · rintro ⟨rfl, hmem⟩
        exact ⟨second, hmem, rfl⟩
    rw [List.mem_append, hhere, ih hrest, mem_targetsOf_iff htargets, List.exists_mem_cons_iff,
      hindex]
    refine or_congr ?_ Iff.rfl
    constructor
    · rintro ⟨rfl, p, hp, hsecond, hjoins⟩
      exact ⟨p, hp, rfl, hsecond, hjoins⟩
    · rintro ⟨p, hp, heq, hsecond, hjoins⟩
      exact ⟨Except.ok.inj heq, p, hp, hsecond, hjoins⟩

/-- The direct changes at an interchange are the pairs that meet there. -/
theorem mem_changesAt_iff {interchange : Interchange} {changes : List (Nat × Nat)}
    (h : n.changesAt interchange = .ok changes) {first second : Nat} :
    (first, second) ∈ changes ↔ n.MeetAt interchange first second := by
  rw [mem_changesAmong_iff h, MeetAt]
  simp only [indexed, List.mem_map, exists_exists_and_eq_and]

/-- **The direct changes are the pairs that meet somewhere.** -/
theorem mem_directChanges_iff {interchanges : List Interchange} {changes : List (Nat × Nat)}
    (h : n.directChanges interchanges = .ok changes) {first second : Nat} :
    (first, second) ∈ changes ↔ n.Meet interchanges first second := by
  induction interchanges generalizing changes with
  | nil =>
    cases h
    simp [Meet]
  | cons interchange interchanges ih =>
    simp only [directChanges, Fault.bind_eq_ok_iff] at h
    obtain ⟨here, hhere, rest, hrest, h⟩ := h
    cases h
    rw [List.mem_append, mem_changesAt_iff hhere, ih hrest, Meet, Meet,
      List.exists_mem_cons_iff]

/-! ## Where the loops succeed -/

theorem exists_targetsOf_iff {dropoff : Route} {pickups : List (Route × Except Fault Nat)} :
    (∃ targets, targetsOf dropoff pickups = .ok targets) ↔
      ∀ p ∈ pickups, Interchange.joins dropoff p.1 = true → ∃ index, p.2 = .ok index := by
  induction pickups with
  | nil => simp [targetsOf]
  | cons p pickups ih =>
    obtain ⟨pickup, index⟩ := p
    rw [targetsOf, List.forall_mem_cons, ← ih]
    split
    · next hjoins =>
      cases index <;> cases targetsOf dropoff pickups <;>
        simp [hjoins, bind, Except.bind, pure, Except.pure]
    · next hjoins => simp [hjoins]

theorem exists_changesAmong_iff {pickups : List (Route × Except Fault Nat)} {dropoffs : List Route} :
    (∃ changes, n.changesAmong pickups dropoffs = .ok changes) ↔
      ∀ dropoff ∈ dropoffs, (∃ index, n.indexOf dropoff.id = .ok index) ∧
        ∀ p ∈ pickups, Interchange.joins dropoff p.1 = true → ∃ index, p.2 = .ok index := by
  induction dropoffs with
  | nil => simp [changesAmong]
  | cons dropoff dropoffs ih =>
    rw [changesAmong, List.forall_mem_cons, ← ih, ← exists_targetsOf_iff]
    cases n.indexOf dropoff.id <;> cases targetsOf dropoff pickups <;>
      cases n.changesAmong pickups dropoffs <;> simp [bind, Except.bind, pure, Except.pure]

/-- Direct changes are found at an interchange if every route that sets down is numbered, and every
route that one can change to from it. -/
theorem exists_changesAt_iff {interchange : Interchange} :
    (∃ changes, n.changesAt interchange = .ok changes) ↔
      ∀ dropoff ∈ interchange.dropoffs, (∃ index, n.indexOf dropoff.id = .ok index) ∧
        ∀ pickup ∈ interchange.pickups, Interchange.joins dropoff pickup = true →
          ∃ index, n.indexOf pickup.id = .ok index := by
  rw [changesAt, exists_changesAmong_iff]
  simp only [indexed, List.forall_mem_map]

theorem exists_changesAt {interchange : Interchange} (h : n.Covers interchange) :
    ∃ changes, n.changesAt interchange = .ok changes :=
  exists_changesAt_iff.mpr fun dropoff hdropoff =>
    ⟨h dropoff (.inl hdropoff), fun pickup hpickup _ => h pickup (.inr hpickup)⟩

/-- Direct changes are found where they are found at every interchange. -/
theorem exists_directChanges_iff {interchanges : List Interchange} :
    (∃ changes, n.directChanges interchanges = .ok changes) ↔
      ∀ interchange ∈ interchanges, ∃ changes, n.changesAt interchange = .ok changes := by
  induction interchanges with
  | nil => simp [directChanges]
  | cons interchange interchanges ih =>
    rw [directChanges, List.forall_mem_cons, ← ih]
    cases n.changesAt interchange <;> cases n.directChanges interchanges <;>
      simp [bind, Except.bind, pure, Except.pure]

/-- Direct changes are found wherever the routes at the interchanges are numbered. -/
theorem exists_directChanges {interchanges : List Interchange}
    (h : ∀ interchange ∈ interchanges, n.Covers interchange) :
    ∃ changes, n.directChanges interchanges = .ok changes :=
  exists_directChanges_iff.mpr fun i hi => exists_changesAt (h i hi)

/-! ## Indexes that meet -/

variable {interchanges : List Interchange} {first second : Nat}

/-- No route meets itself. -/
theorem ne_of_meet (hn : n.NamesApart) (h : n.Meet interchanges first second) :
    first ≠ second := by
  obtain ⟨i, -, dropoff, -, pickup, -, hfirst, hsecond, hjoins⟩ := h
  rintro rfl
  exact (Interchange.joins_iff.mp hjoins).1 (hn hfirst hsecond)

/-- Routes that meet have indexes of the numbering. -/
theorem lt_size_of_meet (hn : n.NamesKept) (h : n.Meet interchanges first second) :
    first < n.size ∧ second < n.size := by
  obtain ⟨i, -, dropoff, -, pickup, -, hfirst, hsecond, -⟩ := h
  exact ⟨hn.indexOf_lt hfirst, hn.indexOf_lt hsecond⟩

end Numbering
end TransitChanges
