set_option autoImplicit false

/-!
# Decimal numerals

A decimal numeral is a sign, digits with at most one point among them, and an exponent of ten:

    [+-] (D+ | D+ . | D+ . D+ | . D+) [(e|E) [+-] D+]

Exact numbers and floating-point numbers are read from the same numerals and differ in what they do
with one, so the grammar stands here once, with the rational value that a numeral denotes.  Only
the ten ASCII digits are digits.
-/

namespace LispShell

/-! ## Signs and digits -/

/-- An optional sign in front of a text: whether it is a minus, and the rest of the text. -/
def splitSign : List Char → Bool × List Char
  | '-' :: rest => (true, rest)
  | '+' :: rest => (false, rest)
  | rest => (false, rest)

/-- The number that a run of decimal digits denotes. -/
def digitsValue (digits : List Char) : Nat :=
  Nat.ofDigitChars 10 digits 0

/-- The sign of an integer written in decimal, and its digits. -/
def decimalText (n : Int) : List Char :=
  if n < 0 then '-' :: Nat.toDigits 10 n.natAbs else Nat.toDigits 10 n.natAbs

/-- The digits of a natural number denote it. -/
theorem digitsValue_toDigits (n : Nat) : digitsValue (Nat.toDigits 10 n) = n :=
  Nat.ofDigitChars_toDigits (by decide) (by decide)

/-- The rational `mantissa · 10 ^ exponent`. -/
def timesPowerOfTen (mantissa : Nat) (exponent : Int) : Rat :=
  mantissa * (10 : Rat) ^ exponent

/-! ## Numerals -/

/-- A decimal numeral, taken apart.  `whole` and `fraction` are the digits before and after the
point. -/
structure Numeral where
  negative : Bool
  whole : List Char
  fraction : List Char
  exponent : Int
  deriving DecidableEq, Repr, Inhabited

namespace Numeral

/-- All digits of the numeral, the point left out. -/
def digits (n : Numeral) : List Char :=
  n.whole ++ n.fraction

/-- The exponent of ten that belongs to the last of the digits. -/
def lastPlace (n : Numeral) : Int :=
  n.exponent - n.fraction.length

/-- The value of the numeral without its sign. -/
def magnitude (n : Numeral) : Rat :=
  timesPowerOfTen (digitsValue n.digits) n.lastPlace

/-- The value of the numeral. -/
def value (n : Numeral) : Rat :=
  if n.negative then -n.magnitude else n.magnitude

/-- The exponent part of a numeral, from its letter to the end of the text: nothing at all, which
means 0, or a letter, an optional sign and digits. -/
def exponentOf? : List Char → Option Int
  | [] => some 0
  | letter :: rest =>
    let (negative, digits) := splitSign rest
    if (letter = 'e' ∨ letter = 'E') ∧ digits ≠ [] ∧ digits.all Char.isDigit then
      some (if negative then -(digitsValue digits : Int) else digitsValue digits)
    else none

/-- The digits after the point, if there is a point, and the text after them. -/
def splitFraction : List Char → List Char × List Char
  | '.' :: rest => rest.span Char.isDigit
  | rest => ([], rest)

/-- The numeral that a whole text spells.  A numeral has a digit before or after its point. -/
def ofText? (text : List Char) : Option Numeral :=
  let (negative, text) := splitSign text
  let (whole, text) := text.span Char.isDigit
  let (fraction, text) := splitFraction text
  if whole = [] ∧ fraction = [] then none
  else (exponentOf? text).map fun exponent => { negative, whole, fraction, exponent }

end Numeral

end LispShell
