import TransitChanges.Json.Value

/-!
# Reading JSON

A strict reader: nothing may stand before or after the value but blanks, numbers have no superfluous
zeros, texts hold no bare control characters, and lists and objects have no trailing commas.

Texts are read in two steps.  First the escapes are resolved into code units (`units`), where an
escape `\uXXXX` is one unit of sixteen bits; then two units of a surrogate pair become one character
(`joinUnits`).  Only the second step can fail on a text that is well formed as JSON.

The reader is a recursion on its fuel.  It spends at most two units between one character and the
next, so twice the length of the document is always enough.

* `joinUnits_map_char`: a text without numeric escapes is its characters.
-/

namespace TransitChanges.Json

/-! ## Texts -/

/-- A code unit of a text: a character, or the number of a numeric escape. -/
inductive CodeUnit where
  | char (c : Char)
  | escaped (n : Nat)

/-- The value of a hexadecimal digit. -/
def hexValue? (c : Char) : Option Nat :=
  if '0' ≤ c ∧ c ≤ '9' then some (c.toNat - '0'.toNat)
  else if 'a' ≤ c ∧ c ≤ 'f' then some (c.toNat - 'a'.toNat + 10)
  else if 'A' ≤ c ∧ c ≤ 'F' then some (c.toNat - 'A'.toNat + 10)
  else none

/-- The value of four hexadecimal digits. -/
def hexNumber? (a b c d : Char) : Option Nat := do
  let a ← hexValue? a
  let b ← hexValue? b
  let c ← hexValue? c
  let d ← hexValue? d
  return ((a * 16 + b) * 16 + c) * 16 + d

/-- The character that a backslash and a letter stand for. -/
def unescape? (c : Char) : Option Char :=
  if c = '"' ∨ c = '\\' ∨ c = '/' then some c
  else if c = 'b' then some '\x08'
  else if c = 'f' then some '\x0c'
  else if c = 'n' then some '\n'
  else if c = 'r' then some '\r'
  else if c = 't' then some '\t'
  else none

/-- The code units of a text up to its closing quote, and what follows it. -/
def units : List Char → Option (List CodeUnit × List Char)
  | [] => none
  | '"' :: rest => some ([], rest)
  | '\\' :: 'u' :: a :: b :: c :: d :: rest =>
    match hexNumber? a b c d, units rest with
    | some n, some (us, rest) => some (.escaped n :: us, rest)
    | _, _ => none
  | '\\' :: c :: rest =>
    match unescape? c, units rest with
    | some c, some (us, rest) => some (.char c :: us, rest)
    | _, _ => none
  | c :: rest =>
    if c.toNat < 32 then none
    else
      match units rest with
      | some (us, rest) => some (.char c :: us, rest)
      | none => none

/-- The characters that code units spell.  A unit from `D800` to `DBFF` and one from `DC00` to
`DFFF` after it are one character; neither stands alone. -/
def joinUnits : List CodeUnit → Option (List Char)
  | [] => some []
  | .char c :: us => (joinUnits us).map (c :: ·)
  | .escaped n :: us =>
    if n < 0xD800 ∨ 0xE000 ≤ n then (joinUnits us).map (Char.ofNat n :: ·)
    else
      match us with
      | .escaped m :: us =>
        if n < 0xDC00 ∧ 0xDC00 ≤ m ∧ m < 0xE000 then
          (joinUnits us).map (Char.ofNat (0x10000 + (n - 0xD800) * 0x400 + (m - 0xDC00)) :: ·)
        else none
      | _ => none

/-- A text without numeric escapes is its characters. -/
theorem joinUnits_map_char (s : List Char) : joinUnits (s.map .char) = some s := by
  induction s with
  | nil => rfl
  | cons c s ih => rw [List.map_cons, joinUnits, ih]; rfl

/-! ## Numbers -/

/-- The digits at the head of a text, of which there has to be one, and what follows them. -/
def digits? (cs : List Char) : Option (List Char × List Char) :=
  match cs.takeWhile Char.isDigit with
  | [] => none
  | ds => some (ds, cs.dropWhile Char.isDigit)

/-- A number without superfluous zeros at the head of a text. -/
def whole? (cs : List Char) : Option (Nat × List Char) :=
  match digits? cs with
  | some (ds, rest) =>
    if ds.head? = some '0' ∧ ds.length ≠ 1 then none
    else some (Nat.ofDigitChars 10 ds 0, rest)
  | none => none

/-- What follows the fraction at the head of a text, and whether there is one. -/
def fraction? : List Char → Option (Bool × List Char)
  | '.' :: rest => (digits? rest).map fun (_, rest) => (true, rest)
  | rest => some (false, rest)

/-- What follows the exponent at the head of a text, and whether there is one. -/
def exponent? : List Char → Option (Bool × List Char)
  | c :: rest =>
    if c = 'e' ∨ c = 'E' then
      let rest := match rest with
        | '+' :: rest => rest
        | '-' :: rest => rest
        | rest => rest
      (digits? rest).map fun (_, rest) => (true, rest)
    else some (false, c :: rest)
  | [] => some (false, [])

/-- The number at the head of a text that has no sign. -/
def unsigned? (cs : List Char) : Option (Json × List Char) := do
  let (n, rest) ← whole? cs
  let (broken, rest) ← fraction? rest
  let (scaled, rest) ← exponent? rest
  return (if broken || scaled then .number else .natural n, rest)

/-! ## Values -/

/-- The blanks between the parts of a document. -/
def isSpace (c : Char) : Bool :=
  c == ' ' || c == '\n' || c == '\t' || c == '\r'

/-- The text after its leading blanks. -/
def skip (cs : List Char) : List Char :=
  cs.dropWhile isSpace

/-- What follows a word at the head of a text. -/
def after? (word cs : List Char) : Option (List Char) :=
  if word.isPrefixOf cs then some (cs.drop word.length) else none

/-- A quoted text, after its opening quote. -/
def quoted? (cs : List Char) : Option (Option (List Char) × List Char) :=
  (units cs).map fun (us, rest) => (joinUnits us, rest)

mutual

/-- The value at the head of a text. -/
def value? : (fuel : Nat) → List Char → Option (Json × List Char)
  | 0, _ => none
  | fuel + 1, cs =>
    match skip cs with
    | '"' :: rest => (quoted? rest).map fun (s, rest) => (.text s, rest)
    | '[' :: rest =>
      match skip rest with
      | ']' :: rest => some (.list [], rest)
      | rest => (items? fuel rest).map fun (items, rest) => (.list items, rest)
    | '\x7b' :: rest =>
      match skip rest with
      | '\x7d' :: rest => some (.object [], rest)
      | rest => (members? fuel rest).map fun (members, rest) => (.object members, rest)
    | '-' :: rest => (unsigned? rest).map fun (_, rest) => (.number, rest)
    | 'n' :: rest => (after? ['u', 'l', 'l'] rest).map fun rest => (.null, rest)
    | 't' :: rest => (after? ['r', 'u', 'e'] rest).map fun rest => (.bool true, rest)
    | 'f' :: rest => (after? ['a', 'l', 's', 'e'] rest).map fun rest => (.bool false, rest)
    | rest => unsigned? rest

/-- The items of a list that has some, and what follows its closing bracket. -/
def items? : (fuel : Nat) → List Char → Option (List Json × List Char)
  | 0, _ => none
  | fuel + 1, cs =>
    match value? fuel cs with
    | none => none
    | some (item, rest) =>
      match skip rest with
      | ']' :: rest => some ([item], rest)
      | ',' :: rest => (items? fuel rest).map fun (items, rest) => (item :: items, rest)
      | _ => none

/-- The members of an object that has some, and what follows its closing brace. -/
def members? : (fuel : Nat) → List Char →
    Option (List (Option (List Char) × Json) × List Char)
  | 0, _ => none
  | fuel + 1, cs =>
    match skip cs with
    | '"' :: rest =>
      match quoted? rest with
      | none => none
      | some (name, rest) =>
        match skip rest with
        | ':' :: rest =>
          match value? fuel rest with
          | none => none
          | some (value, rest) =>
            match skip rest with
            | '\x7d' :: rest => some ([(name, value)], rest)
            | ',' :: rest =>
              (members? fuel rest).map fun (members, rest) => ((name, value) :: members, rest)
            | _ => none
        | _ => none
    | _ => none

end

/-- The value that a document is. -/
def read? (cs : List Char) : Option Json :=
  match value? (2 * cs.length + 1) cs with
  | some (j, rest) => if skip rest = [] then some j else none
  | none => none

end TransitChanges.Json
