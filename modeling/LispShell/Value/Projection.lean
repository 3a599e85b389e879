import LispShell.Number.Binary64.Text
import LispShell.Number.Integer
import LispShell.Number.Exact
import LispShell.Value.Error

set_option autoImplicit false

/-!
# Values as truths and as numbers

Every value counts as true or false.  Every atom projects to an exact rational, to a floating-point
number and to a 64-bit integer: numbers by their value, booleans as 0 and 1, strings and symbols by
reading their contents as a number.  The three projections of a text are three readings and may
differ in what they accept.

The exact reading may break off (`Exact.Reading.overflow`).  `overflows` tells the values with which
it does; the exact projection and `isNumeric` are the answers of all others, and take such contents
for no number.
-/

namespace LispShell.Value

/-! ## Truth -/

/-- The value counts as true.  False are `null`, the boolean, the zeros and the symbol `false`. -/
def isTruthy : Value → Bool
  | .null => false
  | .boolean b => b
  | .integer _ v => v != 0
  | .float x => !x.isZero
  | .rational _ r => r != 0
  | .string _ _ => true
  | .symbol _ text => text != "false"
  | .pair _ _ _ => true
  | .var _ => true
  | .const _ _ => true

/-! ## The exact projection -/

/-- A number that was read from a text, or the error that the text is none. -/
def readAs {α : Type} (text : String) (read : List Char → Option α) : Except ValueError α :=
  match read text.toList with
  | some a => .ok a
  | none => .error (.notNumeric text)

/-- Reading the contents of the value as an exact number breaks off. -/
def overflows : Value → Bool
  | .string _ text | .symbol _ text => Exact.read text.toList = .overflow
  | _ => false

/-- The exact value of an atom. -/
def toRat : Value → Except ValueError Rat
  | .boolean b => .ok (if b then 1 else 0)
  | .integer _ v => .ok v.toInt
  | .float x =>
    match x.toRat? with
    | some r => .ok r
    | none => .error (.notFinite x)
  | .rational _ r => .ok r
  | .string _ text => readAs text Exact.ofText?
  | .symbol _ text => readAs text Exact.ofText?
  | a => .error (.notAnAtom a.kind)

/-- The value is a number, or its contents read as an exact one. -/
def isNumeric : Value → Bool
  | .integer _ _ => true
  | .rational _ _ => true
  | .float x => x.isFinite
  | .string _ text => (Exact.ofText? text.toList).isSome
  | .symbol _ text => (Exact.ofText? text.toList).isSome
  | _ => false

/-! ## The floating-point projection -/

/-- The floating-point number nearest to an atom. -/
def toFloat : Value → Except ValueError Binary64
  | .boolean b => .ok (.ofRat (if b then 1 else 0))
  | .integer _ v => .ok (.ofRat v.toInt)
  | .float x => .ok x
  | .rational _ r => .ok (.ofRat r)
  | .string _ text => readAs text Binary64.ofText?
  | .symbol _ text => readAs text Binary64.ofText?
  | a => .error (.notAnAtom a.kind)

/-! ## The integer projection -/

/-- The 64-bit integer nearest to an integer. -/
def clamp (n : Int) : Int64 :=
  Int64.ofInt (max (-9223372036854775808) (min n 9223372036854775807))

/-- A float without its fraction.  Values past the 64-bit integers give the nearest of them, and
not-a-number gives 0. -/
def truncateFloat : Binary64 → Int64
  | .nan => 0
  | .infinite true => Int64.minValue
  | .infinite false => Int64.maxValue
  | x => clamp (Exact.truncate (x.toRat?.getD 0))

/-- The integer that an atom gives: a rational loses its fraction, and must fit in 64 bits. -/
def toInt : Value → Except ValueError Int64
  | .boolean b => .ok (if b then 1 else 0)
  | .integer _ v => .ok v
  | .float x => .ok (truncateFloat x)
  | .rational _ r =>
    match Integer.ofInt? (Exact.truncate r) with
    | some v => .ok v
    | none => .error (.outOfRange r)
  | .string _ text => readAs text Integer.ofText?
  | .symbol _ text => readAs text Integer.ofText?
  | a => .error (.notAnAtom a.kind)

end LispShell.Value
