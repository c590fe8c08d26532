/-!
# Decimal numerals

Numbers in texts are ASCII decimal.  They are written without superfluous zeros (`decimal`) or
filled up with zeros to a fixed width (`padded`), and read digit by digit up to a given width
(`number?`).

* `ofDigitChars_decimal`: a number reads back from its numeral.
* `ofDigitChars_padded`: the filling does not change the number.
* `number?_nil`: no digit, no number.
-/

namespace TransitChanges.Text

/-- The decimal numeral of `n`, without leading zeros. -/
def decimal (n : Nat) : List Char :=
  Nat.toDigits 10 n

/-- The numeral of `n`, filled up with zeros from the left to at least `width` characters. -/
def padded (width n : Nat) : List Char :=
  List.replicate (width - (decimal n).length) '0' ++ decimal n

/-- The numeral of `n` as a text of its own. -/
def numeral (n : Nat) : String :=
  String.ofList (decimal n)

/-- The binary digits of `n`, filled up with zeros from the left to at least `width` characters. -/
def binary (width n : Nat) : List Char :=
  let digits := Nat.toDigits 2 n
  List.replicate (width - digits.length) '0' ++ digits

/-- The number at the head of a text, from one up to `width` digits, and the text behind it. -/
def number? (width : Nat) (cs : List Char) : Option (Nat × List Char) :=
  let digits := (cs.take width).takeWhile Char.isDigit
  if digits.isEmpty then none
  else some (Nat.ofDigitChars 10 digits 0, cs.drop digits.length)

/-- A number reads back from its numeral. -/
theorem ofDigitChars_decimal (n : Nat) : Nat.ofDigitChars 10 (decimal n) 0 = n :=
  Nat.ofDigitChars_ten_toDigits

/-- The filling does not change the number. -/
theorem ofDigitChars_padded (width n : Nat) :
    Nat.ofDigitChars 10 (padded width n) 0 = n := by
  rw [padded, Nat.ofDigitChars_append, Nat.ofDigitChars_replicate_zero, Nat.mul_zero,
    ofDigitChars_decimal]

@[simp] theorem number?_nil (width : Nat) : number? width [] = none := by
  simp [number?]

end TransitChanges.Text
