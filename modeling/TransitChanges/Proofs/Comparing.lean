import TransitChanges.Proofs.FewestOfPairs

/-!
# Comparing the answers to two queries

A query may be asked again with more stations or of a network with more closures.  This module holds
what such comparisons share and what none of them is about.

The changes between two places are the fewest over pairs of routes, with one change more for a place
that is wholly closed.  So an answer can only get better if every pair is kept and none gets worse
(`IsFewest.le_of_pairs`).  The closed places need one word more: a place without stations is never
wholly closed, but no route leaves it either, so it is enough to compare closed places where some
pair of routes is left to travel (`ToldByPairs.exists_changesBetween_le`).
-/

namespace TransitChanges

/-! ## Outcomes -/

namespace Fault

variable {α β γ δ : Type} {related : α → β → Prop}

/-- Two outcomes are the same refusal, or two answers that are related. -/
inductive SameOr (related : α → β → Prop) : Except Fault α → Except Fault β → Prop where
  | refused (fault : Fault) : SameOr related (.error fault) (.error fault)
  | answered {a : α} {b : β} (h : related a b) : SameOr related (.ok a) (.ok b)

namespace SameOr

/-- Of two outcomes that are answers, the answers are related. -/
theorem of_ok {x : Except Fault α} {y : Except Fault β} {a : α} {b : β} (h : SameOr related x y)
    (hx : x = .ok a) (hy : y = .ok b) : related a b := by
  subst hx hy
  cases h with
  | answered hab => exact hab

theorem refl {related : α → α → Prop} (h : ∀ a, related a a) (x : Except Fault α) :
    SameOr related x x := by
  cases x with
  | error fault => exact .refused fault
  | ok a => exact .answered (h a)

/-- One step after the other. -/
theorem bind {related' : γ → δ → Prop} {x : Except Fault α} {y : Except Fault β}
    {f : α → Except Fault γ} {g : β → Except Fault δ} (h : SameOr related x y)
    (h' : ∀ a b, related a b → SameOr related' (f a) (g b)) :
    SameOr related' (x >>= f) (y >>= g) := by
  cases h with
  | refused fault => exact .refused fault
  | answered hab => exact h' _ _ hab

end SameOr
end Fault

/-! ## Answers about places -/

namespace Changes

/-- Fewer changes remain fewer with fewer changes on top. -/
theorem plus_le_plus {a b : Changes} {m n : Nat} (hab : a ≤ b) (hmn : m ≤ n) :
    a.plus m ≤ b.plus n := by
  cases b with
  | unreachable => exact le_unreachable _
  | exactly j =>
    cases a with
    | unreachable => exact absurd hab Bool.false_ne_true
    | exactly i =>
      have hij : i ≤ j := of_decide_eq_true hab
      exact decide_eq_true (Nat.add_le_add hij hmn)

end Changes

namespace Planner

variable {p p' : Planner} {net net' : Network} {scope scope' : Scope}

/-- The fewest changes over more pairs, none of which has got worse, are no more. -/
theorem IsFewest.le_of_pairs {firsts firsts' seconds seconds' : List RouteId}
    {fewest fewest' : Changes} (h : p.IsFewest scope firsts seconds fewest)
    (h' : p'.IsFewest scope' firsts' seconds' fewest') (hfirsts : firsts ⊆ firsts')
    (hseconds : seconds ⊆ seconds')
    (hpair : ∀ a ∈ firsts, ∀ b ∈ seconds, ∀ c c', p.changesBetweenRoutes a b scope = .ok c →
      p'.changesBetweenRoutes a b scope' = .ok c' → c' ≤ c) : fewest' ≤ fewest := by
  rcases h.attained with rfl | ⟨a, ha, b, hb, hc⟩
  · exact Changes.le_unreachable fewest'
  · obtain ⟨c', hc', hle⟩ := h'.le (hfirsts ha) (hseconds hb)
    exact Changes.le_trans hle (hpair a ha b hb fewest c' hc hc')

namespace ToldByPairs

theorem exists_changesBetween (h : p.ToldByPairs net) (starts destinations : StationSet)
    (scope : Scope) : ∃ c, p.changesBetween starts destinations scope = .ok c := by
  by_cases hnear : ∃ a ∈ starts, ∃ b ∈ destinations, net.areNeighbours a b = true
  · exact ⟨_, h.neighbours scope hnear⟩
  · obtain ⟨fewest, -, hc⟩ := h.places scope hnear
    exact ⟨_, hc⟩

/-- Between places that are not neighbours, the pair of routes with the fewest changes tells the
answer. -/
theorem changesBetween_eq_of_least (h : p.ToldByPairs net) {starts destinations : StationSet}
    (hnear : net.service.anyNeighbours starts destinations = false) {a b : Route}
    (ha : a ∈ net.service.pickupsAt starts scope)
    (hb : b ∈ net.service.dropoffsAt destinations scope) {c : Changes}
    (hc : p.changesBetweenRoutes a.id b.id scope = .ok c)
    (hleast : ∀ r ∈ net.service.pickupsAt starts scope,
      ∀ s ∈ net.service.dropoffsAt destinations scope, ∀ c',
        p.changesBetweenRoutes r.id s.id scope = .ok c' → c ≤ c') :
    p.changesBetween starts destinations scope =
      .ok (c.plus (net.closedEnd starts scope.date + net.closedEnd destinations scope.date)) := by
  obtain ⟨fewest, hfewest, hchanges⟩ := h.places scope fun hnear' => by
    rw [Network.anyNeighbours_service_iff.mpr hnear'] at hnear
    cases hnear
  have hle : fewest ≤ c := by
    obtain ⟨c', hc', hle⟩ := hfewest.le (List.mem_map_of_mem ha) (List.mem_map_of_mem hb)
    rw [hc, Except.ok.injEq] at hc'
    rwa [hc']
  have hge : c ≤ fewest := by
    rcases hfewest.attained with rfl | ⟨_, hfirst, _, hsecond, hattained⟩
    · exact Changes.le_unreachable c
    · obtain ⟨r, hr, rfl⟩ := List.mem_map.mp hfirst
      obtain ⟨s, hs, rfl⟩ := List.mem_map.mp hsecond
      exact hleast r hr s hs fewest hattained
  rw [hchanges, Changes.le_antisymm hle hge]

/-- **A query about places is answered no worse** if neighbours stay neighbours, no route is lost at
either place, no pair of routes gets worse, and a place where some route is left to travel is not
closed for the first time. -/
theorem exists_changesBetween_le (h : p.ToldByPairs net) (h' : p'.ToldByPairs net')
    {starts starts' destinations destinations' : StationSet}
    (hnear : (∃ a ∈ starts, ∃ b ∈ destinations, net.areNeighbours a b = true) →
      ∃ a ∈ starts', ∃ b ∈ destinations', net'.areNeighbours a b = true)
    (hpickups : (net.service.pickupsAt starts scope).map Route.id ⊆
      (net'.service.pickupsAt starts' scope').map Route.id)
    (hdropoffs : (net.service.dropoffsAt destinations scope).map Route.id ⊆
      (net'.service.dropoffsAt destinations' scope').map Route.id)
    (hpair : ∀ r ∈ net.service.pickupsAt starts scope,
      ∀ s ∈ net.service.dropoffsAt destinations scope, ∀ c c',
        p.changesBetweenRoutes r.id s.id scope = .ok c →
          p'.changesBetweenRoutes r.id s.id scope' = .ok c' → c' ≤ c)
    (hclosed : net.service.pickupsAt starts scope ≠ [] →
      net.service.dropoffsAt destinations scope ≠ [] →
        net'.closedEnd starts' scope'.date ≤ net.closedEnd starts scope.date ∧
        net'.closedEnd destinations' scope'.date ≤ net.closedEnd destinations scope.date) :
    ∃ c c', p.changesBetween starts destinations scope = .ok c ∧
      p'.changesBetween starts' destinations' scope' = .ok c' ∧ c' ≤ c := by
  by_cases hnear' : ∃ a ∈ starts', ∃ b ∈ destinations', net'.areNeighbours a b = true
  · obtain ⟨c, hc⟩ := h.exists_changesBetween starts destinations scope
    exact ⟨c, .exactly 0, hc, h'.neighbours scope' hnear', Changes.exactly_zero_le c⟩
  · obtain ⟨fewest, hfewest, hc⟩ := h.places scope fun hboth => hnear' (hnear hboth)
    obtain ⟨fewest', hfewest', hc'⟩ := h'.places scope' hnear'
    refine ⟨_, _, hc, hc', ?_⟩
    have hle : fewest' ≤ fewest := by
      refine hfewest.le_of_pairs hfewest' hpickups hdropoffs fun a ha b hb c c' hac hac' => ?_
      obtain ⟨r, hr, rfl⟩ := List.mem_map.mp ha
      obtain ⟨s, hs, rfl⟩ := List.mem_map.mp hb
      exact hpair r hr s hs c c' hac hac'
    rcases hfewest.attained with rfl | ⟨a, ha, b, hb, -⟩
    · exact Changes.le_unreachable _
    · have hstarts : net.service.pickupsAt starts scope ≠ [] := by
        intro hnone
        rw [hnone] at ha
        cases ha
      have hdestinations : net.service.dropoffsAt destinations scope ≠ [] := by
        intro hnone
        rw [hnone] at hb
        cases hb
      obtain ⟨hfirst, hsecond⟩ := hclosed hstarts hdestinations
      exact Changes.plus_le_plus hle (Nat.add_le_add hfirst hsecond)

end ToldByPairs
end Planner
end TransitChanges
