import Mathlib.Data.List.Induction
import Mathlib.Order.Bounds.Basic

/-!
# Chains of steps

A chain leads from a start to a finish by steps of a relation, and its length is the number of its
steps.

Connections are found round by round, and a round sees no more of a chain than that it can be made
one step longer.  That this finds the *least* lengths rests on two facts.  A chain of the least
length is one step longer than a chain of the least length to the place before its last
(`isLeast_succ_iff`).  And a length that is the least for no finish is the end of the search: no
greater length is the least for any (`not_isLeast_add`).

Where it matters which way a chain goes, its steps carry labels (`Trail`), and the places that it
passes can be told (`Trail.iff_exists_places`).
-/

namespace TransitChanges

/-- A chain of steps from a start, by its length and its finish. -/
inductive Chain {α : Type} (step : α → α → Prop) (start : α) : Nat → α → Prop where
  | refl : Chain step start 0 start
  | tail {length : Nat} {via finish : α} :
      Chain step start length via → step via finish → Chain step start (length + 1) finish

namespace Chain

variable {α β : Type} {step : α → α → Prop} {start via finish : α} {k m d : Nat}

theorem zero_iff : Chain step start 0 finish ↔ start = finish := by
  constructor
  · intro h
    cases h
    rfl
  · rintro rfl
    exact refl

theorem succ_iff :
    Chain step start (k + 1) finish ↔ ∃ via, Chain step start k via ∧ step via finish := by
  constructor
  · intro h
    cases h with
    | tail hchain hstep => exact ⟨_, hchain, hstep⟩
  · rintro ⟨via, hchain, hstep⟩
    exact hchain.tail hstep

theorem one_iff : Chain step start 1 finish ↔ step start finish := by
  rw [succ_iff]
  constructor
  · rintro ⟨via, hchain, hstep⟩
    rw [zero_iff] at hchain
    rw [hchain]
    exact hstep
  · intro hstep
    exact ⟨start, refl, hstep⟩

/-- A chain is empty or begins with a step. -/
theorem eq_or_exists_step (h : Chain step start k finish) :
    (k = 0 ∧ start = finish) ∨ ∃ next, step start next := by
  induction h with
  | refl => exact .inl ⟨rfl, rfl⟩
  | @tail _ _ finish _ hlast ih =>
    rcases ih with ⟨-, rfl⟩ | hfirst
    · exact .inr ⟨finish, hlast⟩
    · exact .inr hfirst

theorem trans (h : Chain step start k via) (h' : Chain step via m finish) :
    Chain step start (k + m) finish := by
  induction h' with
  | refl => exact h
  | tail _ hstep ih => exact ih.tail hstep

/-- A chain is carried over by a map that carries its steps over. -/
theorem map {step' : β → β → Prop} {f : α → β} (hf : ∀ {x y}, step x y → step' (f x) (f y))
    (h : Chain step start k finish) : Chain step' (f start) k (f finish) := by
  induction h with
  | refl => exact refl
  | tail _ hstep ih => exact ih.tail (hf hstep)

/-- A chain is followed by one of another relation, if related places have steps to related
places. -/
theorem simulate {step' : β → β → Prop} {R : α → β → Prop} {start' : β}
    (h : Chain step start k finish)
    (hstep : ∀ x y x', step x y → R x x' → ∃ y', R y y' ∧ step' x' y')
    (hstart : R start start') :
    ∃ finish', R finish finish' ∧ Chain step' start' k finish' := by
  induction h with
  | refl => exact ⟨start', hstart, refl⟩
  | tail _ hlast ih =>
    obtain ⟨via', hvia, hchain⟩ := ih
    obtain ⟨finish', hfinish, hlast'⟩ := hstep _ _ _ hlast hvia
    exact ⟨finish', hfinish, hchain.tail hlast'⟩

theorem mono {step' : α → α → Prop} (hstep : ∀ {x y}, step x y → step' x y)
    (h : Chain step start k finish) : Chain step' start k finish :=
  h.map (f := id) hstep

/-! ## Least lengths -/

/-- The lengths of the chains from a start to a finish. -/
def lengths (step : α → α → Prop) (start finish : α) : Set Nat :=
  {k | Chain step start k finish}

theorem mem_lengths : k ∈ lengths step start finish ↔ Chain step start k finish := Iff.rfl

/-- The least length is the length of a chain, and no chain is shorter. -/
theorem isLeast_iff : IsLeast (lengths step start finish) d ↔
    Chain step start d finish ∧ ∀ k < d, ¬ Chain step start k finish := by
  constructor
  · rintro ⟨hmem, hleast⟩
    refine ⟨hmem, fun k hk hchain => ?_⟩
    have hle := hleast hchain
    omega
  · rintro ⟨hmem, hnone⟩
    refine ⟨hmem, fun k hchain => ?_⟩
    exact Nat.le_of_not_lt fun hlt => hnone k hlt hchain

/-- If there is a chain, there is one of the least length. -/
theorem exists_isLeast (h : Chain step start k finish) :
    ∃ d ≤ k, IsLeast (lengths step start finish) d := by
  induction k using Nat.strong_induction_on with
  | _ k ih =>
    by_cases hshorter : ∃ j < k, Chain step start j finish
    · obtain ⟨j, hj, hchain⟩ := hshorter
      obtain ⟨d, hd, hleast⟩ := ih j hj hchain
      exact ⟨d, by omega, hleast⟩
    · refine ⟨k, Nat.le_refl k, isLeast_iff.mpr ⟨h, fun j hj hchain => ?_⟩⟩
      exact hshorter ⟨j, hj, hchain⟩

/-- **A chain of the least length is one step longer than a chain of the least length to the place
before its last.**  This is what one round of a search can see. -/
theorem isLeast_succ_iff : IsLeast (lengths step start finish) (d + 1) ↔
    (∃ via, IsLeast (lengths step start via) d ∧ step via finish) ∧
      ∀ k ≤ d, ¬ Chain step start k finish := by
  simp only [isLeast_iff, succ_iff (k := d)]
  constructor
  · rintro ⟨⟨via, hchain, hstep⟩, hnone⟩
    refine ⟨⟨via, ⟨hchain, fun k hk hshort => ?_⟩, hstep⟩, fun k hk => hnone k (by omega)⟩
    exact hnone (k + 1) (by omega) (hshort.tail hstep)
  · rintro ⟨⟨via, ⟨hchain, -⟩, hstep⟩, hnone⟩
    exact ⟨⟨via, hchain, hstep⟩, fun k hk => hnone k (by omega)⟩

/-- A length that is the least for no finish ends the search. -/
theorem not_isLeast_add (h : ∀ finish, ¬ IsLeast (lengths step start finish) d) (j : Nat)
    (finish : α) : ¬ IsLeast (lengths step start finish) (d + j) := by
  induction j generalizing finish with
  | zero => exact h finish
  | succ j ih =>
    intro hleast
    rw [← Nat.add_assoc] at hleast
    obtain ⟨⟨via, hvia, -⟩, -⟩ := isLeast_succ_iff.mp hleast
    exact ih via hvia

/-- The places of a chain of the least length are as far from its start as they stand along it. -/
theorem isLeast_of_trans (hleast : IsLeast (lengths step start finish) (k + m))
    (h : Chain step start k via) (h' : Chain step via m finish) :
    IsLeast (lengths step start via) k := by
  refine isLeast_iff.mpr ⟨h, fun j hj hshort => ?_⟩
  have hle := hleast.2 (hshort.trans h')
  omega

/-- Places that are a step apart are joined by a chain. -/
theorem of_places {place : Nat → α} {k m : Nat}
    (h : ∀ l < k + m, step (place l) (place (l + 1))) : Chain step (place k) m (place (k + m)) := by
  induction m with
  | zero => exact refl
  | succ m ih => exact (ih fun l hl => h l (by omega)).tail (h (k + m) (by omega))

/-- Along a chain of the least length the places are as far from its start as they are counted. -/
theorem isLeast_of_places {place : Nat → α} (h : ∀ l < d, step (place l) (place (l + 1)))
    (hleast : IsLeast (lengths step (place 0) (place d)) d) (hk : k ≤ d) :
    IsLeast (lengths step (place 0) (place k)) k := by
  obtain ⟨m, rfl⟩ := Nat.exists_eq_add_of_le hk
  have hbefore : Chain step (place 0) k (place (0 + k)) := of_places fun l hl => h l (by omega)
  rw [Nat.zero_add] at hbefore
  exact isLeast_of_trans hleast hbefore (of_places h)

end Chain

/-! ## Labels -/

/-- A chain of steps that go by labels, by the list of its labels and its finish. -/
inductive Trail {α σ : Type} (step : α → σ → α → Prop) (start : α) : List σ → α → Prop where
  | refl : Trail step start [] start
  | tail {labels : List σ} {label : σ} {via finish : α} :
      Trail step start labels via → step via label finish →
        Trail step start (labels ++ [label]) finish

namespace Trail

variable {α σ : Type} {step : α → σ → α → Prop} {start finish : α} {labels : List σ} {k : Nat}

/-- A trail is a chain as long as its list of labels. -/
theorem toChain (h : Trail step start labels finish) :
    Chain (fun x y => ∃ label, step x label y) start labels.length finish := by
  induction h with
  | refl => exact .refl
  | tail _ hstep ih =>
    rw [List.length_append, List.length_singleton]
    exact ih.tail ⟨_, hstep⟩

theorem succ_iff :
    Trail step start labels finish ∧ labels.length = k + 1 ↔
      ∃ via before label, labels = before ++ [label] ∧ before.length = k ∧
        Trail step start before via ∧ step via label finish := by
  constructor
  · rintro ⟨h, hlength⟩
    cases h with
    | refl => cases hlength
    | @tail before label via _ hbefore hstep =>
      rw [List.length_append, List.length_singleton] at hlength
      exact ⟨via, before, label, rfl, by omega, hbefore, hstep⟩
  · rintro ⟨via, before, label, rfl, hlength, hbefore, hstep⟩
    refine ⟨hbefore.tail hstep, ?_⟩
    rw [List.length_append, List.length_singleton, hlength]

theorem one_iff : Trail step start labels finish ∧ labels.length = 1 ↔
    ∃ label, labels = [label] ∧ step start label finish := by
  rw [succ_iff]
  constructor
  · rintro ⟨via, before, label, rfl, hlength, hbefore, hstep⟩
    obtain rfl := List.length_eq_zero_iff.mp hlength
    have hchain := hbefore.toChain
    rw [List.length_nil, Chain.zero_iff] at hchain
    subst hchain
    exact ⟨label, rfl, hstep⟩
  · rintro ⟨label, rfl, hstep⟩
    exact ⟨start, [], label, rfl, rfl, .refl, hstep⟩

/-- A trail passes places, from each of which it goes on by the next label. -/
theorem iff_exists_places : Trail step start labels finish ↔
    ∃ place : Nat → α, place 0 = start ∧ place labels.length = finish ∧
      ∀ k (hk : k < labels.length), step (place k) labels[k] (place (k + 1)) := by
  constructor
  · intro h
    induction h with
    | refl => exact ⟨fun _ => start, rfl, rfl, fun k hk => absurd hk (Nat.not_lt_zero k)⟩
    | @tail labels label via finish _ hstep ih =>
      obtain ⟨place, rfl, rfl, hsteps⟩ := ih
      refine ⟨fun k => if k ≤ labels.length then place k else finish, if_pos (Nat.zero_le _), ?_,
        fun k hk => ?_⟩
      · rw [List.length_append, List.length_singleton]
        exact if_neg (by omega)
      · rw [List.length_append, List.length_singleton] at hk
        dsimp only
        rw [if_pos (by omega)]
        rcases Nat.lt_succ_iff_lt_or_eq.mp hk with hlt | rfl
        · rw [if_pos (Nat.succ_le_of_lt hlt), List.getElem_append_left hlt]
          exact hsteps k hlt
        · rw [if_neg (by omega), List.getElem_concat_length rfl]
          exact hstep
  · rintro ⟨place, rfl, rfl, hsteps⟩
    induction labels using List.reverseRecOn with
    | nil => exact .refl
    | append_singleton labels label ih =>
      rw [List.length_append, List.length_singleton]
      refine (ih fun k hk => ?_).tail ?_
      · have hstep := hsteps k (by rw [List.length_append]; omega)
        rwa [List.getElem_append_left hk] at hstep
      · have hstep := hsteps labels.length (by simp)
        rwa [List.getElem_concat_length rfl] at hstep

/-- There is a trail whose labels all pass a test exactly if there is a chain of steps that go by
some label that passes it. -/
theorem exists_iff_chain {p : σ → Prop} :
    (∃ labels, (Trail step start labels finish ∧ labels.length = k) ∧ ∀ label ∈ labels, p label) ↔
      Chain (fun x y => ∃ label, step x label y ∧ p label) start k finish := by
  constructor
  · rintro ⟨labels, ⟨h, rfl⟩, hp⟩
    induction h with
    | refl => exact .refl
    | @tail labels label _ _ _ hstep ih =>
      rw [List.length_append, List.length_singleton]
      refine (ih fun l hl => hp l (List.mem_append_left _ hl)).tail ⟨label, hstep, ?_⟩
      exact hp label (List.mem_append_right _ (List.mem_singleton_self label))
  · intro h
    induction h with
    | refl => exact ⟨[], ⟨.refl, rfl⟩, fun _ hl => by cases hl⟩
    | tail _ hstep ih =>
      obtain ⟨labels, ⟨htrail, hlength⟩, hp⟩ := ih
      obtain ⟨label, hstep, hlabel⟩ := hstep
      refine ⟨labels ++ [label], ⟨htrail.tail hstep, ?_⟩, fun l hl => ?_⟩
      · rw [List.length_append, List.length_singleton, hlength]
      · rcases List.mem_append.mp hl with hl | hl
        · exact hp l hl
        · rw [List.mem_singleton.mp hl]
          exact hlabel

end Trail
end TransitChanges
