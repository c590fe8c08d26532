import Mathlib.Tactic.SplitIfs
import TransitChanges.Json.Reader

/-!
# Text of JSON is read back

What is written of a value is read as that value, if the value holds nothing that was kept only as
far as it can be skipped (`Json.isKept`).  Each reader is taken to a text that starts with what was
written and goes on with what ends a value (`Json.EndsValue`): it reads the value and stops there.

* `units_flatMap_escape`: the escapes of a text stand for its characters.
* `unsigned?_decimal`: a numeral is its number.
* `value?_write`: a reader that has two units of fuel for each character reads a value.
* `read?_write`: a document is read back.
-/

namespace TransitChanges.Json

/-! ## Values that are kept -/

mutual

/-- Whether a value is read back from its text. -/
def isKept : Json → Bool
  | null => true
  | bool _ => true
  | natural _ => true
  | number => false
  | text s => s.isSome
  | list items => areKept items
  | object members => haveKept members

/-- Whether the items of a list are read back. -/
def areKept : List Json → Bool
  | [] => true
  | item :: items => isKept item && areKept items

/-- Whether the members of an object are read back. -/
def haveKept : List (Option (List Char) × Json) → Bool
  | [] => true
  | (name, value) :: members => name.isSome && isKept value && haveKept members

end

/-- A text that ends the value before it. -/
def EndsValue (cs : List Char) : Prop :=
  ∀ c ∈ cs.head?, c = ',' ∨ c = ']' ∨ c = '\x7d'

theorem endsValue_nil : EndsValue [] := by
  rintro c ⟨⟩

theorem endsValue_comma (cs : List Char) : EndsValue (',' :: cs) := by
  rintro c ⟨⟩
  exact .inl rfl

theorem endsValue_bracket (cs : List Char) : EndsValue (']' :: cs) := by
  rintro c ⟨⟩
  exact .inr (.inl rfl)

theorem endsValue_brace (cs : List Char) : EndsValue ('\x7d' :: cs) := by
  rintro c ⟨⟩
  exact .inr (.inr rfl)

/-! ## Texts -/

/-- The code unit that a character is read as. -/
def unitOf (c : Char) : CodeUnit :=
  if c.toNat < 32 ∧ c ≠ '\x08' ∧ c ≠ '\t' ∧ c ≠ '\n' ∧ c ≠ '\x0c' ∧ c ≠ '\r' then .escaped c.toNat
  else .char c

theorem joinUnits_escaped {n : Nat} (h : n < 0xD800) (us : List CodeUnit) :
    joinUnits (.escaped n :: us) = (joinUnits us).map (Char.ofNat n :: ·) := by
  cases us with
  | nil => simp [joinUnits, h]
  | cons u us => cases u <;> simp [joinUnits, h]

theorem joinUnits_map_unitOf (s : List Char) : joinUnits (s.map unitOf) = some s := by
  induction s with
  | nil => rfl
  | cons c s ih =>
    rw [List.map_cons, unitOf]
    split
    · next hcontrol =>
      rw [joinUnits_escaped (by omega), ih, Char.ofNat_toNat]
      rfl
    · rw [joinUnits, ih]
      rfl

theorem hexNumber?_of_lt : ∀ n < 32,
    hexNumber? '0' '0' (hexDigit (n / 16)) (hexDigit (n % 16)) = some n := by
  decide

/-- The escape of a character is its code unit. -/
theorem units_escape (c : Char) (cs : List Char) :
    units (escape c ++ cs) = (units cs).map fun p => (unitOf c :: p.1, p.2) := by
  unfold escape
  split_ifs with hquote hbackslash hb ht hn hf hr hcontrol
  · subst hquote
    cases h : units cs <;> simp [units, unescape?, h, unitOf]
  · subst hbackslash
    cases h : units cs <;> simp [units, unescape?, h, unitOf]
  · subst hb
    cases h : units cs <;> simp [units, unescape?, h, unitOf]
  · subst ht
    cases h : units cs <;> simp [units, unescape?, h, unitOf]
  · subst hn
    cases h : units cs <;> simp [units, unescape?, h, unitOf]
  · subst hf
    cases h : units cs <;> simp [units, unescape?, h, unitOf]
  · subst hr
    cases h : units cs <;> simp [units, unescape?, h, unitOf]
  · have hunit : unitOf c = .escaped c.toNat := if_pos ⟨hcontrol, hb, ht, hn, hf, hr⟩
    cases h : units cs <;> simp [units, hexNumber?_of_lt _ hcontrol, h, hunit]
  · have hunit : unitOf c = .char c := if_neg fun h => hcontrol h.1
    cases h : units cs <;> simp [units, hbackslash, hcontrol, h, hunit]

/-- The escapes of a text stand for its characters. -/
theorem units_flatMap_escape (s rest : List Char) :
    units (s.flatMap escape ++ '"' :: rest) = some (s.map unitOf, rest) := by
  induction s with
  | nil => simp [units]
  | cons c s ih =>
    rw [List.flatMap_cons, List.append_assoc, units_escape, ih]
    rfl

theorem quoted?_quote (s rest : List Char) :
    quoted? (s.flatMap escape ++ '"' :: rest) = some (some s, rest) := by
  rw [quoted?, units_flatMap_escape, Option.map_some]
  dsimp only
  rw [joinUnits_map_unitOf]

/-! ## Numbers -/

theorem isDigit_of_mem_decimal {n : Nat} {c : Char} (h : c ∈ Text.decimal n) : c.isDigit = true :=
  Nat.isDigit_of_mem_toDigits (by decide) (by decide) h

/-- The numeral of a positive number starts with no zero. -/
theorem head?_decimal_ne {n : Nat} (h : 0 < n) : (Text.decimal n).head? ≠ some '0' := by
  unfold Text.decimal
  induction n using Nat.strongRecOn with
  | ind n ih =>
    by_cases hlt : n < 10
    · have hdigit : ∀ n < 10, 0 < n → [n.digitChar].head? ≠ some '0' := by decide
      rw [Nat.toDigits_of_lt_base hlt]
      exact hdigit n hlt h
    · have hhead := ih (n / 10) (by omega) (by omega)
      rw [Nat.toDigits_of_base_le (by decide) (by omega)]
      cases hdigits : Nat.toDigits 10 (n / 10) with
      | nil => exact absurd hdigits Nat.toDigits_ne_nil
      | cons d ds => rwa [hdigits] at hhead

theorem not_isDigit_of_endsValue {rest : List Char} (h : EndsValue rest) :
    rest.takeWhile Char.isDigit = [] ∧ rest.dropWhile Char.isDigit = rest := by
  cases rest with
  | nil => exact ⟨rfl, rfl⟩
  | cons c rest => rcases h c rfl with rfl | rfl | rfl <;> exact ⟨rfl, rfl⟩

theorem whole?_decimal {n : Nat} {rest : List Char} (h : EndsValue rest) :
    whole? (Text.decimal n ++ rest) = some (n, rest) := by
  obtain ⟨htake, hdrop⟩ := not_isDigit_of_endsValue h
  have hdigits : digits? (Text.decimal n ++ rest) = some (Text.decimal n, rest) := by
    have hall := fun c (hc : c ∈ Text.decimal n) => isDigit_of_mem_decimal hc
    rw [digits?, List.takeWhile_append_of_pos hall, List.dropWhile_append_of_pos hall, htake, hdrop,
      List.append_nil]
    split
    · next hnil => exact absurd hnil Nat.toDigits_ne_nil
    · rfl
  rw [whole?, hdigits]
  dsimp only
  rw [if_neg, Text.ofDigitChars_decimal]
  rintro ⟨hzero, hlong⟩
  rcases Nat.eq_zero_or_pos n with rfl | hpos
  · exact hlong rfl
  · exact head?_decimal_ne hpos hzero

/-- A numeral is its number. -/
theorem unsigned?_decimal {n : Nat} {rest : List Char} (h : EndsValue rest) :
    unsigned? (Text.decimal n ++ rest) = some (natural n, rest) := by
  have hfraction : fraction? rest = some (false, rest) := by
    cases rest with
    | nil => rfl
    | cons c rest => rcases h c rfl with rfl | rfl | rfl <;> rfl
  have hexponent : exponent? rest = some (false, rest) := by
    cases rest with
    | nil => rfl
    | cons c rest => rcases h c rfl with rfl | rfl | rfl <;> rfl
  rw [unsigned?, whole?_decimal h]
  simp [hfraction, hexponent]

/-! ## Values -/

theorem isSpace_of_isDigit {c : Char} (h : c.isDigit = true) : isSpace c = false := by
  rw [isSpace, Bool.or_eq_false_iff, Bool.or_eq_false_iff, Bool.or_eq_false_iff]
  refine ⟨⟨⟨?_, ?_⟩, ?_⟩, ?_⟩ <;>
    · rw [beq_eq_false_iff_ne]
      rintro rfl
      exact absurd h (by decide)

/-- The first character of a numeral is a digit. -/
theorem exists_decimal_eq_cons (n : Nat) : ∃ c cs, Text.decimal n = c :: cs ∧ c.isDigit = true := by
  cases hn : Text.decimal n with
  | nil => exact absurd hn Nat.toDigits_ne_nil
  | cons c cs =>
    exact ⟨c, cs, rfl, isDigit_of_mem_decimal (n := n) (hn ▸ List.mem_cons_self)⟩

/-- The first character of a value that is written: no blank, and no bracket that ends a list. -/
theorem exists_write_eq_cons (j : Json) :
    ∃ c cs, j.write = c :: cs ∧ isSpace c = false ∧ c ≠ ']' := by
  cases j with
  | natural n =>
    obtain ⟨c, cs, hn, hdigit⟩ := exists_decimal_eq_cons n
    refine ⟨c, cs, by rw [write, hn], isSpace_of_isDigit hdigit, ?_⟩
    rintro rfl
    exact absurd hdigit (by decide)
  | bool b => cases b <;> exact ⟨_, _, by rw [write]; rfl, by decide, by decide⟩
  | text s => cases s <;> exact ⟨_, _, by rw [write]; rfl, by decide, by decide⟩
  | _ => exact ⟨_, _, by rw [write]; rfl, by decide, by decide⟩

theorem skip_cons {c : Char} (h : isSpace c = false) (cs : List Char) :
    skip (c :: cs) = c :: cs := by
  rw [skip, List.dropWhile_cons, h]
  rfl

theorem value?_of_isDigit {c : Char} (h : c.isDigit = true) (fuel : Nat) (cs : List Char) :
    value? (fuel + 1) (c :: cs) = unsigned? (c :: cs) := by
  rw [value?, skip_cons (isSpace_of_isDigit h)]
  split <;> first
    | rfl
    | next heq => 
      injection heq with hc
      subst hc
      exact absurd h (by decide)

theorem value?_quote (fuel : Nat) (s rest : List Char) :
    value? (fuel + 1) (quote s ++ rest) = some (.text (some s), rest) := by
  rw [quote, List.append_assoc, List.cons_append, value?, skip_cons (by decide)]
  change (quoted? (s.flatMap escape ++ '"' :: rest)).map _ = _
  rw [quoted?_quote]
  rfl

theorem exists_writeItems_eq_cons (item : Json) (items : List Json) :
    ∃ c cs, writeItems (item :: items) = c :: cs ∧ isSpace c = false ∧ c ≠ ']' := by
  obtain ⟨c, cs, hitem, hspace, hc⟩ := exists_write_eq_cons item
  cases items with
  | nil => exact ⟨c, cs, by rw [writeItems, hitem], hspace, hc⟩
  | cons next items =>
    refine ⟨c, cs ++ ',' :: writeItems (next :: items), ?_, hspace, hc⟩
    rw [writeItems, hitem, List.cons_append]
    rintro ⟨⟩

theorem exists_writeMembers_eq_cons (member : Option (List Char) × Json)
    (members : List (Option (List Char) × Json)) :
    ∃ cs, writeMembers (member :: members) = '"' :: cs := by
  obtain ⟨name, value⟩ := member
  cases members with
  | nil => exact ⟨_, by rw [writeMembers, quote]; rfl⟩
  | cons next members =>
    refine ⟨(name.getD []).flatMap escape ++ ['"'] ++ ':' :: value.write ++
      ',' :: writeMembers (next :: members), ?_⟩
    rw [writeMembers, quote]
    · rfl
    · rintro ⟨⟩

section Steps

variable {fuel : Nat} {name cs more rest : List Char} {value item : Json}

theorem items?_of_value? (h : value? fuel cs = some (item, ']' :: rest)) :
    items? (fuel + 1) cs = some ([item], rest) := by
  rw [items?, h]
  rfl

theorem items?_cons {items : List Json} (h : value? fuel cs = some (item, ',' :: more))
    (hmore : items? fuel more = some (items, rest)) :
    items? (fuel + 1) cs = some (item :: items, rest) := by
  rw [items?, h]
  change (items? fuel more).map _ = _
  rw [hmore]
  rfl

theorem value?_bracket (cs : List Char) : value? (fuel + 1) ('[' :: cs) =
    match skip cs with
    | ']' :: rest => some (list [], rest)
    | rest => (items? fuel rest).map fun (items, rest) => (list items, rest) := by
  rw [value?, skip_cons (by decide)]
  rfl

theorem value?_of_items? {c : Char} {items : List Json} (hspace : isSpace c = false) (hc : c ≠ ']')
    (h : items? fuel (c :: cs) = some (items, rest)) :
    value? (fuel + 1) ('[' :: c :: cs) = some (list items, rest) := by
  rw [value?_bracket, skip_cons hspace]
  split
  · next heq =>
    injection heq with heq
    exact absurd heq hc
  · rw [h]
    rfl

theorem members?_of_value? (h : value? fuel cs = some (value, '\x7d' :: rest)) :
    members? (fuel + 1) (quote name ++ ':' :: cs) = some ([(some name, value)], rest) := by
  rw [quote, List.append_assoc, List.cons_append, members?, skip_cons (by decide)]
  simp only [List.cons_append, List.nil_append, quoted?_quote]
  rw [skip_cons (by decide)]
  simp only [h]
  rfl

theorem members?_cons {members : List (Option (List Char) × Json)}
    (h : value? fuel cs = some (value, ',' :: more))
    (hmore : members? fuel more = some (members, rest)) :
    members? (fuel + 1) (quote name ++ ':' :: cs) = some ((some name, value) :: members, rest) := by
  rw [quote, List.append_assoc, List.cons_append, members?, skip_cons (by decide)]
  simp only [List.cons_append, List.nil_append, quoted?_quote]
  rw [skip_cons (by decide)]
  simp only [h]
  change (members? fuel more).map _ = _
  rw [hmore]
  rfl

theorem value?_of_members? {members : List (Option (List Char) × Json)}
    (h : members? fuel ('"' :: cs) = some (members, rest)) :
    value? (fuel + 1) ('\x7b' :: '"' :: cs) = some (object members, rest) := by
  rw [value?, skip_cons (by decide)]
  change (members? fuel ('"' :: cs)).map _ = _
  rw [h]
  rfl

end Steps

theorem length_write_pos (j : Json) : 0 < j.write.length := by
  obtain ⟨c, cs, hj, -⟩ := exists_write_eq_cons j
  rw [hj]
  exact Nat.succ_pos _

mutual

/-- **A value that is written is read.** -/
theorem value?_write (rest : List Char) : ∀ (fuel : Nat) (j : Json), j.isKept = true →
    EndsValue rest → 2 * j.write.length ≤ fuel + 1 → value? fuel (j.write ++ rest) = some (j, rest)
  | 0, j, _, _, hfuel => by
    have hpos := j.length_write_pos
    omega
  | _ + 1, null, _, _, _ => by
    rw [write]
    rfl
  | _ + 1, bool b, _, _, _ => by cases b <;> rw [write] <;> rfl
  | _ + 1, natural n, _, hrest, _ => by
    obtain ⟨c, cs, hn, hdigit⟩ := exists_decimal_eq_cons n
    rw [write, ← unsigned?_decimal hrest, hn]
    exact value?_of_isDigit hdigit _ _
  | _ + 1, text (some s), _, _, _ => by
    rw [write]
    exact value?_quote _ s rest
  | _ + 1, list [], _, _, _ => by
    rw [write]
    rfl
  | fuel + 1, list (item :: items), hkept, _, hfuel => by
    rw [isKept] at hkept
    rw [write, List.length_append, List.length_cons, List.length_singleton] at hfuel
    have hitems := items?_write rest fuel (item :: items) hkept (by simp) (by omega)
    obtain ⟨c, cs, hcs, hspace, hc⟩ := exists_writeItems_eq_cons item items
    rw [hcs] at hitems
    rw [write, hcs, List.append_assoc]
    exact value?_of_items? hspace hc hitems
  | _ + 1, object [], _, _, _ => by
    rw [write]
    rfl
  | fuel + 1, object (member :: members), hkept, _, hfuel => by
    rw [isKept] at hkept
    rw [write, List.length_append, List.length_cons, List.length_singleton] at hfuel
    have hmembers := members?_write rest fuel (member :: members) hkept (by simp) (by omega)
    obtain ⟨cs, hcs⟩ := exists_writeMembers_eq_cons member members
    rw [hcs] at hmembers
    rw [write, hcs, List.append_assoc]
    exact value?_of_members? hmembers

theorem items?_write (rest : List Char) : ∀ (fuel : Nat) (items : List Json),
    areKept items = true → items ≠ [] → 2 * (writeItems items).length ≤ fuel →
      items? fuel (writeItems items ++ ']' :: rest) = some (items, rest)
  | _, [], _, hne, _ => absurd rfl hne
  | 0, item :: items, _, _, hfuel => by
    obtain ⟨c, cs, hcs, -⟩ := exists_writeItems_eq_cons item items
    rw [hcs, List.length_cons] at hfuel
    omega
  | fuel + 1, [item], hkept, _, hfuel => by
    rw [areKept, Bool.and_eq_true] at hkept
    rw [writeItems] at hfuel ⊢
    exact items?_of_value?
      (value?_write _ fuel item hkept.1 (endsValue_bracket rest) (by omega))
  | fuel + 1, item :: next :: items, hkept, _, hfuel => by
    rw [areKept, Bool.and_eq_true] at hkept
    rw [writeItems, List.length_append, List.length_cons] at hfuel
    · rw [writeItems, List.append_assoc]
      · exact items?_cons
          (value?_write _ fuel item hkept.1 (endsValue_comma _) (by omega))
          (items?_write rest fuel (next :: items) hkept.2 (by simp) (by omega))
      · rintro ⟨⟩
    · rintro ⟨⟩

theorem members?_write (rest : List Char) : ∀ (fuel : Nat)
    (members : List (Option (List Char) × Json)), haveKept members = true → members ≠ [] →
      2 * (writeMembers members).length ≤ fuel →
      members? fuel (writeMembers members ++ '\x7d' :: rest) = some (members, rest)
  | _, [], _, hne, _ => absurd rfl hne
  | 0, member :: members, _, _, hfuel => by
    obtain ⟨cs, hcs⟩ := exists_writeMembers_eq_cons member members
    rw [hcs, List.length_cons] at hfuel
    omega
  | fuel + 1, [(some name, value)], hkept, _, hfuel => by
    rw [haveKept, Bool.and_eq_true, Bool.and_eq_true] at hkept
    rw [writeMembers, List.length_append, List.length_cons] at hfuel
    rw [writeMembers, List.append_assoc]
    exact members?_of_value?
      (value?_write _ fuel value hkept.1.2 (endsValue_brace rest) (by omega))
  | fuel + 1, (some name, value) :: next :: members, hkept, _, hfuel => by
    rw [haveKept, Bool.and_eq_true, Bool.and_eq_true] at hkept
    rw [writeMembers, List.length_append, List.length_append, List.length_cons,
      List.length_cons] at hfuel
    · rw [writeMembers, List.append_assoc, List.append_assoc]
      · exact members?_cons
          (value?_write _ fuel value hkept.1.2 (endsValue_comma _) (by omega))
          (members?_write rest fuel (next :: members) hkept.2 (by simp) (by omega))
      · rintro ⟨⟩
    · rintro ⟨⟩

end

/-- **A document is read back.** -/
theorem read?_write {j : Json} (h : j.isKept = true) : read? j.write = some j := by
  have hvalue := value?_write [] (2 * j.write.length + 1) j h endsValue_nil (by omega)
  rw [List.append_nil] at hvalue
  rw [read?, hvalue]
  rfl

end TransitChanges.Json
