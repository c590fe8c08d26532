import Mathlib.Data.List.Nodup
import Std.Data.TreeMap.Lemmas

/-!
# The last entry of a key

Entries of a list that are put in a map one after the other replace each other: under every key the
map holds the last entry of that key, and what it held before if there is none.  No entry is lost
exactly if no key is repeated, and then the map is as large as the list is long.

* `getElem?_foldl_insert`: the last entry of a key.
* `getElem?_foldl_insert_iff_mem`: without repeated keys, the entries.
* `size_foldl_insert_eq_iff`: when no entry is lost.
-/

namespace TransitChanges

section Lists

variable {α β : Type} {p : α → Bool} {l : List α}

theorem of_findRev?_eq_some {a : α} (h : l.findRev? p = some a) : a ∈ l ∧ p a = true := by
  rw [List.findRev?_eq_find?_reverse] at h
  exact ⟨List.mem_reverse.mp (List.mem_of_find?_eq_some h), List.find?_some h⟩

/-- There is a last entry of a kind if there is any. -/
theorem exists_findRev?_iff : (∃ a, l.findRev? p = some a) ↔ ∃ a ∈ l, p a = true := by
  rw [← Option.isSome_iff_exists, List.findRev?_eq_find?_reverse, List.find?_isSome]
  simp only [List.mem_reverse]

/-- Without repeated keys, the last entry of a key is the only one. -/
theorem map_findRev?_eq_some_iff_mem [DecidableEq α] {entries : List (α × β)}
    (hnodup : (entries.map Prod.fst).Nodup) {key : α} {b : β} :
    (entries.findRev? fun e => e.1 = key).map Prod.snd = some b ↔ (key, b) ∈ entries := by
  rw [Option.map_eq_some_iff]
  constructor
  · rintro ⟨⟨key', b'⟩, hlast, rfl⟩
    obtain ⟨hmem, hkey⟩ := of_findRev?_eq_some hlast
    rw [← of_decide_eq_true hkey]
    exact hmem
  · intro hmem
    obtain ⟨e, hlast⟩ : ∃ e, entries.findRev? (fun e => e.1 = key) = some e :=
      exists_findRev?_iff.mpr ⟨(key, b), hmem, decide_eq_true rfl⟩
    obtain ⟨he, hkey⟩ := of_findRev?_eq_some hlast
    refine ⟨e, hlast, ?_⟩
    rw [List.inj_on_of_nodup_map hnodup he hmem (of_decide_eq_true hkey)]

end Lists

section Maps

variable {α β : Type} [Ord α]

/-- A map of a list is the entries of the list put in one after the other. -/
theorem ofList_eq_foldl_insert (entries : List (α × β)) :
    Std.TreeMap.ofList entries = entries.foldl (fun map e => map.insert e.1 e.2) ∅ := by
  have hinsert (map : Std.TreeMap α β) :
      map.insertMany entries = entries.foldl (fun map e => map.insert e.1 e.2) map := by
    induction entries generalizing map with
    | nil => exact Std.TreeMap.insertMany_nil
    | cons e entries ih => rw [List.foldl_cons, ← ih, Std.TreeMap.insertMany_cons]
  rw [Std.TreeMap.ofList_eq_insertMany_empty, hinsert]

variable [Std.TransOrd α]

theorem size_foldl_insert_le (entries : List (α × β)) (map : Std.TreeMap α β) :
    (entries.foldl (fun map e => map.insert e.1 e.2) map).size ≤ map.size + entries.length := by
  induction entries generalizing map with
  | nil => exact Nat.le_refl _
  | cons e entries ih =>
    have hinsert : (map.insert e.1 e.2).size ≤ map.size + 1 := Std.TreeMap.size_insert_le
    have hrest := ih (map.insert e.1 e.2)
    rw [List.foldl_cons, List.length_cons]
    omega

variable [Std.LawfulEqOrd α]

/-- **No entry is lost** exactly if every key is new and none is repeated. -/
theorem size_foldl_insert_eq_iff (entries : List (α × β)) (map : Std.TreeMap α β) :
    (entries.foldl (fun map e => map.insert e.1 e.2) map).size = map.size + entries.length ↔
      (∀ e ∈ entries, e.1 ∉ map) ∧ (entries.map Prod.fst).Nodup := by
  induction entries generalizing map with
  | nil => simp
  | cons e entries ih =>
    have hrest := size_foldl_insert_le entries (map.insert e.1 e.2)
    have hnew : (∀ e' ∈ entries, e'.1 ∉ map.insert e.1 e.2) ↔
        (∀ e' ∈ entries, e'.1 ∉ map) ∧ e.1 ∉ entries.map Prod.fst := by
      simp only [Std.TreeMap.mem_insert, Std.LawfulEqOrd.compare_eq_iff_eq, not_or, List.mem_map,
        not_exists, not_and]
      constructor
      · exact fun h => ⟨fun e' he' => (h e' he').2, fun e' he' heq => (h e' he').1 heq.symm⟩
      · exact fun h e' he' => ⟨fun heq => h.2 e' he' heq.symm, h.1 e' he'⟩
    rw [List.foldl_cons, List.length_cons, List.forall_mem_cons, List.map_cons, List.nodup_cons]
    by_cases hmem : e.1 ∈ map
    · -- the first entry replaces one, and the others cannot make up for it
      have hsize : (map.insert e.1 e.2).size = map.size := by
        rw [Std.TreeMap.size_insert, if_pos (Std.TreeMap.mem_iff_contains.mp hmem)]
      exact iff_of_false (by omega) fun h => h.1.1 hmem
    · have hsize : (map.insert e.1 e.2).size = map.size + 1 := by
        rw [Std.TreeMap.size_insert, if_neg fun h => hmem (Std.TreeMap.mem_iff_contains.mpr h)]
      have hsum : map.size + (entries.length + 1) =
          (map.insert e.1 e.2).size + entries.length := by omega
      rw [hsum, ih, hnew, and_assoc, and_assoc]
      exact (and_iff_right hmem).symm

variable [DecidableEq α]

/-- **Under a key stands its last entry**, or what stood there before. -/
theorem getElem?_foldl_insert {γ : Type} (keyOf : γ → α) (valueOf : γ → β) (entries : List γ)
    (map : Std.TreeMap α β) (key : α) :
    (entries.foldl (fun map e => map.insert (keyOf e) (valueOf e)) map)[key]? =
      ((entries.findRev? fun e => keyOf e = key).map valueOf).or map[key]? := by
  induction entries generalizing map with
  | nil => rfl
  | cons e entries ih =>
    rw [List.foldl_cons, ih, List.findRev?, Std.TreeMap.getElem?_insert]
    cases entries.findRev? fun e => keyOf e = key with
    | some last => rfl
    | none => by_cases hkey : keyOf e = key <;> simp [hkey]

/-- Without repeated keys, a map holds the entries that were put in it. -/
theorem getElem?_foldl_insert_iff_mem {entries : List (α × β)}
    (hnodup : (entries.map Prod.fst).Nodup) {key : α} {b : β} :
    (entries.foldl (fun map e => map.insert e.1 e.2) (∅ : Std.TreeMap α β))[key]? = some b ↔
      (key, b) ∈ entries := by
  rw [getElem?_foldl_insert Prod.fst Prod.snd, Std.TreeMap.getElem?_emptyc, Option.or_none,
    map_findRev?_eq_some_iff_mem hnodup]

end Maps
end TransitChanges
