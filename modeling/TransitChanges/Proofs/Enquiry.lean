import TransitChanges.Proofs.Asking
import TransitChanges.Proofs.Expansion
import TransitChanges.Ranking

/-!
# The changes of a pair, and the fewest over many

The changes between two routes are those that the tables record, if some chain of stations operates.
Out of a faithful memory that is one answer, whatever was asked before (`changesNow`), and in built
tables it is told by chains of links that can be made now (`exists_changesNow`).

The searches over many pairs are told by what they are no worse than: the fewest changes are as few
as an answer exactly if those of some pair are.  That a search stops at the first pair that needs no
change does not show, because no answer is better than that.

* `ensures_changesFor`: the changes of a pair out of memory are those asked afresh.
* `ensures_fewestBetween`: the search over all pairs finds the least.
* `exists_changesNow`: the changes of a pair in built tables.
* `Planner.changesBetweenRoutes_eq_changesNow`: two routes are asked about afresh.
-/

namespace TransitChanges

open Bits

namespace Enquiry

variable (e : Enquiry)

/-- The changes needed between two routes, every station asked afresh. -/
def changesNow (pair : RoutePair) : Except Fault Changes :=
  if pair.isSame then .ok (.exactly 0)
  else do
    let ways ← e.planner.tables.waysFor e.gate e.scope.modes pair
    return if ways.isOpen (e.planner.service.isOperating e.scope) then ways.depth else .unreachable

variable {e} {known : Memory → Prop} {answers : Interchange → Bool → Prop}

/-- What the changes of a pair may be, given what the answers about stations may be. -/
theorem ensures_changesFor_of {pair : RoutePair} (hpair : pair.isSame = false)
    {ways : Ways Interchange}
    (hways : e.planner.tables.waysFor e.gate e.scope.modes pair = .ok ways)
    (hask : ∀ i ∈ ways.stations, Asking.Ensures known
      (ExceptT.lift (e.planner.service.operates e.scope i)) (answers i)) :
    Asking.Ensures known (e.changesFor pair) fun c =>
      ∃ b, Ways.Answers answers ways.chains b ∧ c = if b then ways.depth else .unreachable := by
  rw [changesFor, hpair, if_neg Bool.false_ne_true, hways]
  refine (Asking.Ensures.pure (a := ways) rfl).bind ?_
  rintro _ rfl
  refine (Ways.ensures_askOpen hask).bind fun b hb => ?_
  cases b with
  | true => exact .pure ⟨true, hb, rfl⟩
  | false => exact .pure ⟨false, hb, rfl⟩

/-- Where a pair has its ways, its changes are found. -/
theorem ensures_changesFor_any {pair : RoutePair} {ways : Ways Interchange}
    (hways : e.planner.tables.waysFor e.gate e.scope.modes pair = .ok ways) :
    Asking.Ensures (fun _ => True) (e.changesFor pair) fun _ => True := by
  cases hpair : pair.isSame with
  | true =>
    rw [changesFor, if_pos hpair]
    exact .pure trivial
  | false =>
    exact (ensures_changesFor_of hpair hways fun i _ =>
      e.planner.service.ensures_operates_any e.scope i).mono fun _ _ => trivial

/-- **The changes of a pair out of memory are those asked afresh.** -/
theorem ensures_changesFor {interchanges : List Interchange} {answer : StationId → Bool}
    (ht : e.planner.tables.IsBuilt interchanges)
    (h : e.planner.service.AnswersAt e.scope interchanges answer) {pair : RoutePair}
    {c : Changes} (hc : e.changesNow pair = .ok c) :
    Asking.Ensures (Memory.Faithful answer) (e.changesFor pair) fun c' => c' = c := by
  cases hpair : pair.isSame with
  | true =>
    rw [changesNow, if_pos hpair] at hc
    cases hc
    rw [changesFor, if_pos hpair]
    exact .pure rfl
  | false =>
    rw [changesNow, hpair, if_neg Bool.false_ne_true, Fault.bind_eq_ok_iff] at hc
    obtain ⟨ways, hways, hc⟩ := hc
    cases hc
    refine (ensures_changesFor_of hpair hways fun i hi =>
      Service.ensures_operates (h i (ht.mem_of_waysFor hways hi))).mono ?_
    rintro _ ⟨b, hb, rfl⟩
    rw [Ways.answers_iff] at hb
    rw [hb]

/-! ## Searches over pairs -/

variable {cost : Nat → Nat → Changes}
  (hcost : ∀ i j, Asking.Ensures known (e.changesFor ⟨i, j⟩) fun c => c = cost i j)

include hcost in
/-- The search from one route is no worse than an answer if the best so far or some destination
is not. -/
theorem ensures_fewestFrom (start : Nat) (best : Changes) {destinations : List Route}
    (hindexed : ∀ r ∈ destinations, ∃ j, e.planner.tables.numbering.indexOf r.id = .ok j) :
    Asking.Ensures known (e.fewestFrom start best destinations) fun fewest =>
      ∀ c, fewest ≤ c ↔ best ≤ c ∨ ∃ r ∈ destinations, ∃ j,
        e.planner.tables.numbering.indexOf r.id = .ok j ∧ cost start j ≤ c := by
  induction destinations generalizing best with
  | nil =>
    refine .pure fun c => ?_
    simp
  | cons r destinations ih =>
    obtain ⟨j, hj⟩ := hindexed r List.mem_cons_self
    rw [fewestFrom]
    refine (Asking.Ensures.ofExcept hj rfl).bind ?_
    rintro _ rfl
    refine (hcost start j).bind ?_
    rintro _ rfl
    have hhere (c : Changes) : (∃ k, e.planner.tables.numbering.indexOf r.id = .ok k ∧
        cost start k ≤ c) ↔ cost start j ≤ c := by
      rw [hj]
      simp
    dsimp only
    split
    · next hzero =>
      refine .pure fun c => iff_of_true ?_ ?_
      · rw [hzero]
        exact Changes.exactly_zero_le c
      · rw [List.exists_mem_cons_iff, hhere, ← or_assoc, ← Changes.fewer_le_iff, hzero]
        exact .inl (Changes.exactly_zero_le c)
    · refine (ih (best.fewer (cost start j)) fun s hs =>
        hindexed s (List.mem_cons_of_mem _ hs)).mono fun fewest hfewest c => ?_
      rw [hfewest, Changes.fewer_le_iff, List.exists_mem_cons_iff, hhere, or_assoc]

include hcost in
/-- **The search over all pairs finds the least answer.** -/
theorem ensures_fewestBetween {destinations : List Route} (best : Changes) {starts : List Route}
    (hdestinations : ∀ r ∈ destinations, ∃ j, e.planner.tables.numbering.indexOf r.id = .ok j)
    (hstarts : ∀ r ∈ starts, ∃ i, e.planner.tables.numbering.indexOf r.id = .ok i) :
    Asking.Ensures known (e.fewestBetween destinations best starts) fun fewest =>
      ∀ c, fewest ≤ c ↔ best ≤ c ∨ ∃ s ∈ starts, ∃ i,
        e.planner.tables.numbering.indexOf s.id = .ok i ∧ ∃ r ∈ destinations, ∃ j,
          e.planner.tables.numbering.indexOf r.id = .ok j ∧ cost i j ≤ c := by
  induction starts generalizing best with
  | nil =>
    refine .pure fun c => ?_
    simp
  | cons s starts ih =>
    obtain ⟨i, hi⟩ := hstarts s List.mem_cons_self
    rw [fewestBetween]
    refine (Asking.Ensures.ofExcept hi rfl).bind ?_
    rintro _ rfl
    refine (ensures_fewestFrom hcost i best hdestinations).bind fun nearest hnearest => ?_
    have hhere (c : Changes) : (∃ k, e.planner.tables.numbering.indexOf s.id = .ok k ∧
        ∃ r ∈ destinations, ∃ j, e.planner.tables.numbering.indexOf r.id = .ok j ∧
          cost k j ≤ c) ↔ ∃ r ∈ destinations, ∃ j,
        e.planner.tables.numbering.indexOf r.id = .ok j ∧ cost i j ≤ c := by
      rw [hi]
      simp
    split
    · next hzero =>
      refine .pure fun c => iff_of_true ?_ ?_
      · rw [hzero]
        exact Changes.exactly_zero_le c
      · rw [List.exists_mem_cons_iff, hhere, ← or_assoc, ← hnearest, hzero]
        exact .inl (Changes.exactly_zero_le c)
    · refine (ih nearest fun r hr =>
        hstarts r (List.mem_cons_of_mem _ hr)).mono fun fewest hfewest c => ?_
      rw [hfewest, hnearest, List.exists_mem_cons_iff, hhere, or_assoc]

/-- The search over all pairs has an answer, and it is the least of the changes asked afresh. -/
theorem exists_fewestBetween {interchanges : List Interchange} {answer : StationId → Bool}
    (ht : e.planner.tables.IsBuilt interchanges)
    (h : e.planner.service.AnswersAt e.scope interchanges answer)
    (hfound : ∀ i j, ∃ c, e.changesNow ⟨i, j⟩ = .ok c) {destinations starts : List Route}
    (hdestinations : ∀ r ∈ destinations, ∃ j, e.planner.tables.numbering.indexOf r.id = .ok j)
    (hstarts : ∀ r ∈ starts, ∃ i, e.planner.tables.numbering.indexOf r.id = .ok i) :
    ∃ fewest, (e.fewestBetween destinations .unreachable starts).result = .ok fewest ∧
      ∀ d, fewest ≤ .exactly d ↔ ∃ s ∈ starts, ∃ i,
        e.planner.tables.numbering.indexOf s.id = .ok i ∧ ∃ r ∈ destinations, ∃ j,
          e.planner.tables.numbering.indexOf r.id = .ok j ∧
            ∃ c, e.changesNow ⟨i, j⟩ = .ok c ∧ c ≤ .exactly d := by
  choose cost hcost using hfound
  obtain ⟨fewest, hresult, hfewest⟩ := (ensures_fewestBetween
    (fun i j => ensures_changesFor ht h (hcost i j)) .unreachable hdestinations hstarts).result
      (Memory.faithful_empty answer)
  refine ⟨fewest, hresult, fun d => ?_⟩
  have hnever : ¬ Changes.unreachable ≤ .exactly d := Bool.false_ne_true
  rw [hfewest, or_iff_right hnever]
  simp only [hcost, Except.ok.injEq, exists_eq_left']

/-- Where the changes to every destination are found, so are the fewest. -/
theorem ensures_fewestTo_any {start : Nat} {destinations : List Nat} (best : Changes)
    (h : ∀ j ∈ destinations, Asking.Ensures known (e.changesFor ⟨start, j⟩) fun _ => True) :
    Asking.Ensures known (e.fewestTo start best destinations) fun _ => True := by
  induction destinations generalizing best with
  | nil => exact .pure trivial
  | cons j destinations ih =>
    refine (h j List.mem_cons_self).bind fun c _ => ?_
    exact ih (best.fewer c) fun k hk => h k (List.mem_cons_of_mem _ hk)

/-! ## The changes of a pair in built tables -/

variable (e) in
/-- A change that can be made now: a step of an expansion by a station that operates. -/
def Open (interchanges : List Interchange) (start first second : Nat) : Prop :=
  ∃ station, e.planner.tables.LinkBy interchanges e.gate e.scope.modes start first station second ∧
    e.planner.service.isOperating e.scope station = true

variable {interchanges : List Interchange} {i j d : Nat} {ways : Ways Interchange}

/-- The ways of a pair are open exactly if a chain of changes can be made now. -/
theorem isOpen_iff_chain
    (h : e.planner.tables.Expands interchanges e.gate e.scope.modes i j d ways) :
    ways.isOpen (e.planner.service.isOperating e.scope) = true ↔
      Chain (e.Open interchanges i) i d j := by
  rw [Ways.isOpen_iff_exists_chain]
  simp only [h.mem_chains_iff]
  exact Trail.exists_iff_chain

/-- Open ways have the recorded number of changes. -/
theorem depth_eq_of_isOpen (ht : e.planner.tables.IsBuilt interchanges)
    (hdegree : e.planner.tables.degrees.degreeOf ⟨i, j⟩ = some d)
    (h : e.planner.tables.Expands interchanges e.gate e.scope.modes i j d ways)
    (hserved : e.planner.tables.Served interchanges e.gate e.scope.modes)
    (hopen : ways.isOpen (e.planner.service.isOperating e.scope) = true) :
    ways.depth = .exactly d := by
  rcases h.uniform hserved with rfl | huniform
  · rw [Ways.isOpen] at hopen
    cases hopen
  · exact ht.depth_eq hdegree huniform

/-- In built tables the changes of a pair are found. -/
theorem exists_changesNow_of_isBuilt (ht : e.planner.tables.IsBuilt interchanges) (i j : Nat) :
    ∃ c, e.changesNow ⟨i, j⟩ = .ok c := by
  obtain ⟨ways, hways, -⟩ := ht.exists_waysFor e.gate e.scope.modes i j
  unfold changesNow
  split
  · exact ⟨_, rfl⟩
  · rw [hways]
    exact ⟨_, rfl⟩

/-- **A pair needs the recorded number of changes if a chain of so many operates**, and else it is
unreachable. -/
theorem exists_changesNow (ht : e.planner.tables.IsBuilt interchanges)
    (hserved : e.planner.tables.Served interchanges e.gate e.scope.modes) (i j : Nat) :
    ∃ c, e.changesNow ⟨i, j⟩ = .ok c ∧ ∀ d, c = .exactly d ↔
      e.planner.tables.degrees.degreeOf ⟨i, j⟩ = some d ∧
        Chain (e.Open interchanges i) i d j := by
  by_cases hij : i = j
  · subst hij
    refine ⟨.exactly 0, ?_, fun d => ?_⟩
    · rw [changesNow, if_pos (by simp [RoutePair.isSame])]
    · rw [Degrees.degreeOf_self, Changes.exactly.injEq, Option.some.injEq]
      refine (and_iff_left_of_imp ?_).symm
      rintro rfl
      exact .refl
  · have hsame : ¬ (RoutePair.mk i j).isSame = true := by simpa [RoutePair.isSame] using hij
    obtain ⟨ways, hways, hcases⟩ := ht.exists_waysFor e.gate e.scope.modes i j
    refine ⟨if ways.isOpen (e.planner.service.isOperating e.scope) then ways.depth
      else .unreachable, ?_, fun d => ?_⟩
    · rw [changesNow, if_neg hsame, hways]
      rfl
    rcases hcases with ⟨-, k, hdegree, hexpands⟩ | ⟨hshut, rfl⟩
    · rw [hdegree, Option.some.injEq]
      split
      · next hopen =>
        rw [depth_eq_of_isOpen ht hdegree hexpands hserved hopen, Changes.exactly.injEq]
        refine (and_iff_left_of_imp ?_).symm
        rintro rfl
        exact (isOpen_iff_chain hexpands).mp hopen
      · next hclosed =>
        refine iff_of_false (fun h => by cases h) ?_
        rintro ⟨rfl, hchain⟩
        exact hclosed ((isOpen_iff_chain hexpands).mpr hchain)
    · rw [Ways.isOpen, if_neg Bool.false_ne_true]
      refine iff_of_false (fun h => by cases h) ?_
      rintro ⟨hdegree, hchain⟩
      cases hchain with
      | refl => exact hij rfl
      | tail _ hlast =>
        obtain ⟨station, ⟨-, -, hgate, -⟩, -⟩ := hlast
        rw [hshut _ hdegree] at hgate
        cases hgate

end Enquiry

/-- The query about two routes tells the changes of their indexes, every station asked afresh. -/
theorem Planner.changesBetweenRoutes_eq_changesNow {p : Planner} {interchanges : List Interchange}
    {scope : Scope} {answer : StationId → Bool} (ht : p.tables.IsBuilt interchanges)
    (hanswers : p.service.AnswersAt scope interchanges answer) {a b : RouteId} {i j : Nat}
    (hi : p.tables.numbering.indexOf a = .ok i) (hj : p.tables.numbering.indexOf b = .ok j) :
    p.changesBetweenRoutes a b scope = (p.enquiry scope).changesNow ⟨i, j⟩ := by
  obtain ⟨c, hc⟩ := Enquiry.exists_changesNow_of_isBuilt (e := p.enquiry scope) ht i j
  obtain ⟨c', hc', rfl⟩ := (Enquiry.ensures_changesFor (e := p.enquiry scope) ht hanswers hc).result
    (Memory.faithful_empty answer)
  rw [changesBetweenRoutes, Numbering.pairOf_eq_ok hi hj, hc]
  dsimp only [bind, Except.bind]
  split
  · next hsame =>
    rw [Enquiry.changesNow, if_pos hsame] at hc
    exact hc
  · exact hc'

end TransitChanges
