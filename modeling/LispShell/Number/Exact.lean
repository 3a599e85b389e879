import LispShell.Number.Integer

set_option autoImplicit false

/-!
# Exact numbers as text

An exact number is read from a fraction `[+-]D+/D+` or from a decimal numeral, and written as an
integer or as a fraction in lowest terms.  Reading is exact, so the exponent of a numeral is
bounded: beyond `exponentLimit` the text is no number.

The exponent is a 64-bit integer, and its magnitude is what is compared with the limit.  The
smallest 64-bit integer has no magnitude among them.  A numeral with that exponent is neither a
number nor refused: reading breaks off at it without an answer, and this is a case of its own
(`Reading.overflow`).
-/

namespace LispShell.Exact

/-! ## Reading -/

/-- The largest exponent of ten, in magnitude, that an exact number may be written with. -/
def exponentLimit : Nat := 4096

/-- The value of a text of the form `[+-]D+/D+`, if its denominator is not zero. -/
def ofFraction? (text : List Char) : Option Rat :=
  let (negative, text) := splitSign text
  match text.span Char.isDigit with
  | (numerator, '/' :: denominator) =>
    if numerator ≠ [] ∧ denominator ≠ [] ∧ denominator.all Char.isDigit ∧
        digitsValue denominator ≠ 0 then
      let magnitude := mkRat (digitsValue numerator) (digitsValue denominator)
      some (if negative then -magnitude else magnitude)
    else none
  | _ => none

/-- What reading a text as an exact number comes to. -/
inductive Reading where
  /-- the text denotes this number -/
  | number (r : Rat)
  /-- the text denotes no number -/
  | noNumber
  /-- the exponent has no magnitude, and there is no answer -/
  | overflow
  deriving DecidableEq, Repr, Inhabited

/-- The number that was read, if one was. -/
def Reading.number? : Reading → Option Rat
  | .number r => some r
  | .noNumber | .overflow => none

/-- The magnitude of a 64-bit integer, if it fits in 64 bits again. -/
def magnitude? (v : Int64) : Option Nat :=
  if v = Int64.minValue then none else some v.toInt.natAbs

/-- Reads a decimal numeral.  Its exponent must fit in 64 bits and be within the limit. -/
def readNumeral (text : List Char) : Reading :=
  match Numeral.ofText? text with
  | none => .noNumber
  | some n =>
    match Integer.ofInt? n.exponent with
    | none => .noNumber
    | some exponent =>
      match magnitude? exponent with
      | none => .overflow
      | some size => if size ≤ exponentLimit then .number n.value else .noNumber

/-- Reads an exact number.  Blanks at the ends of the text do not matter. -/
def read (text : List Char) : Reading :=
  let text := Text.trim text
  match ofFraction? text with
  | some r => .number r
  | none => readNumeral text

/-- The value of a decimal numeral whose exponent is within the limit. -/
def ofNumeral? (text : List Char) : Option Rat :=
  (readNumeral text).number?

/-- The exact number that a text denotes. -/
def ofText? (text : List Char) : Option Rat :=
  (read text).number?

/-- The number is that of the fraction, or else that of the numeral. -/
theorem ofText?_eq_or (text : List Char) :
    ofText? text = (ofFraction? (Text.trim text)).or (ofNumeral? (Text.trim text)) := by
  unfold ofText? read
  cases h : ofFraction? (Text.trim text) <;> simp [h, Reading.number?, ofNumeral?]

/-! ## Writing -/

/-- The text of an exact number: an integer alone, anything else as a fraction in lowest terms. -/
def text (r : Rat) : List Char :=
  if r.den = 1 then decimalText r.num else decimalText r.num ++ '/' :: Nat.toDigits 10 r.den

/-! ## Integral part -/

/-- The number without its fraction, toward zero. -/
def truncate (r : Rat) : Int :=
  r.num.tdiv r.den

end LispShell.Exact
