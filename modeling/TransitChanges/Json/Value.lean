import TransitChanges.Text.Decimal

/-!
# JSON values and their text

Files of the cache hold JSON.  A value keeps what the readers of records look at: of a number
whether it is a natural number and which, of an object its members in order with repeats, of a text
its characters.  Everything else a document may hold is kept as far as it can be skipped: a number
of another kind, and a text whose escapes spell half of a surrogate pair, which is no sequence of
characters.

Values are written without any blanks.  In a text only the quote, the backslash and the control
characters are escaped.

A document can be long, so it is rendered into one growing string; the rule of its text is `write`.

* `toList_render`: what is rendered is the text by the rule.
-/

namespace TransitChanges

/-- A JSON value, as far as records need it. -/
inductive Json where
  | null
  | bool (b : Bool)
  /-- A number written without sign, fraction and exponent. -/
  | natural (n : Nat)
  /-- Any other number. -/
  | number
  /-- A text, and `none` for one that is no sequence of characters. -/
  | text (s : Option (List Char))
  | list (items : List Json)
  | object (members : List (Option (List Char) × Json))
  deriving Inhabited

namespace Json

/-- The text with given characters. -/
def ofString (s : String) : Json :=
  .text (some s.toList)

/-- An object with given members. -/
def ofMembers (members : List (String × Json)) : Json :=
  .object (members.map fun (name, value) => (some name.toList, value))

/-- A hexadecimal digit. -/
def hexDigit (n : Nat) : Char :=
  if n < 10 then Char.ofNat ('0'.toNat + n) else Char.ofNat ('a'.toNat + n - 10)

/-- How a character is written in a text. -/
def escape (c : Char) : List Char :=
  if c = '"' then ['\\', '"']
  else if c = '\\' then ['\\', '\\']
  else if c = '\x08' then ['\\', 'b']
  else if c = '\t' then ['\\', 't']
  else if c = '\n' then ['\\', 'n']
  else if c = '\x0c' then ['\\', 'f']
  else if c = '\r' then ['\\', 'r']
  else if c.toNat < 32 then
    ['\\', 'u', '0', '0', hexDigit (c.toNat / 16), hexDigit (c.toNat % 16)]
  else [c]

/-- A text in quotes. -/
def quote (s : List Char) : List Char :=
  '"' :: s.flatMap escape ++ ['"']

mutual

/-- The text of a value.  Numbers and texts that are not kept are written as `null`. -/
def write : Json → List Char
  | null => "null".toList
  | bool true => "true".toList
  | bool false => "false".toList
  | natural n => Text.decimal n
  | number => "null".toList
  | text (some s) => quote s
  | text none => "null".toList
  | list items => '[' :: writeItems items ++ [']']
  | object members => '\x7b' :: writeMembers members ++ ['\x7d']

/-- The items of a list, separated by commas. -/
def writeItems : List Json → List Char
  | [] => []
  | [item] => write item
  | item :: items => write item ++ ',' :: writeItems items

/-- The members of an object, separated by commas. -/
def writeMembers : List (Option (List Char) × Json) → List Char
  | [] => []
  | [(name, value)] => quote (name.getD []) ++ ':' :: write value
  | (name, value) :: members =>
    quote (name.getD []) ++ ':' :: write value ++ ',' :: writeMembers members

end

/-- A text with characters behind it. -/
def pushAll (s : String) (cs : List Char) : String :=
  cs.foldl String.push s

mutual

/-- A text with the text of a value behind it. -/
def pushValue (s : String) : Json → String
  | null => s ++ "null"
  | bool true => s ++ "true"
  | bool false => s ++ "false"
  | natural n => pushAll s (Text.decimal n)
  | number => s ++ "null"
  | text (some t) => pushAll s (quote t)
  | text none => s ++ "null"
  | list items => (pushItems (s.push '[') items).push ']'
  | object members => (pushMembers (s.push '\x7b') members).push '\x7d'

/-- A text with the items of a list behind it. -/
def pushItems (s : String) : List Json → String
  | [] => s
  | [item] => pushValue s item
  | item :: items => pushItems ((pushValue s item).push ',') items

/-- A text with the members of an object behind it. -/
def pushMembers (s : String) : List (Option (List Char) × Json) → String
  | [] => s
  | [(name, value)] => pushValue ((pushAll s (quote (name.getD []))).push ':') value
  | (name, value) :: members =>
    pushMembers ((pushValue ((pushAll s (quote (name.getD []))).push ':') value).push ',') members

end

theorem toList_pushAll (s : String) (cs : List Char) :
    (pushAll s cs).toList = s.toList ++ cs := by
  unfold pushAll
  induction cs generalizing s with
  | nil => rw [List.foldl_nil, List.append_nil]
  | cons c cs ih => rw [List.foldl_cons, ih, String.toList_push, List.append_assoc]; rfl

mutual

theorem toList_pushValue (s : String) : ∀ j, (pushValue s j).toList = s.toList ++ write j
  | null => by rw [pushValue, write, String.toList_append]
  | bool true => by rw [pushValue, write, String.toList_append]
  | bool false => by rw [pushValue, write, String.toList_append]
  | natural _ => by rw [pushValue, write, toList_pushAll]
  | number => by rw [pushValue, write, String.toList_append]
  | text (some _) => by rw [pushValue, write, toList_pushAll]
  | text none => by rw [pushValue, write, String.toList_append]
  | list items => by
    rw [pushValue, write, String.toList_push, toList_pushItems _ items]
    simp
  | object members => by
    rw [pushValue, write, String.toList_push, toList_pushMembers _ members]
    simp

theorem toList_pushItems (s : String) :
    ∀ items, (pushItems s items).toList = s.toList ++ writeItems items
  | [] => by rw [pushItems, writeItems, List.append_nil]
  | [item] => by rw [pushItems, writeItems, toList_pushValue s item]
  | item :: next :: items => by
    rw [pushItems, writeItems, toList_pushItems _ (next :: items), String.toList_push,
      toList_pushValue s item] <;> simp

theorem toList_pushMembers (s : String) :
    ∀ members, (pushMembers s members).toList = s.toList ++ writeMembers members
  | [] => by rw [pushMembers, writeMembers, List.append_nil]
  | [(_, value)] => by
    rw [pushMembers, writeMembers, toList_pushValue _ value]
    simp [toList_pushAll]
  | (_, value) :: next :: members => by
    rw [pushMembers, writeMembers, toList_pushMembers _ (next :: members), String.toList_push,
      toList_pushValue _ value] <;> simp [toList_pushAll]

end

/-- The text of a value as a string. -/
def render (j : Json) : String :=
  pushValue "" j

/-- The characters of a rendered value are those it is written as. -/
theorem toList_render (j : Json) : j.render.toList = j.write := by
  rw [render, toList_pushValue]
  rfl

end Json
end TransitChanges
