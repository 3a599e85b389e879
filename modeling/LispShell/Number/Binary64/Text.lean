import LispShell.Number.Binary64.Shortest
import LispShell.Text.Blank

set_option autoImplicit false

/-!
# Floating-point numbers as text

A floating-point number is read from a decimal numeral, correctly rounded, or from one of the words
`inf`, `infinity` and `nan` in any case with a sign.  It is written with the fewest digits that read
back, positionally when its first digit stands for `10 ^ -4` up to `10 ^ 5`, and otherwise with an
exponent of a sign and at least two digits.
-/

namespace LispShell.Binary64

/-! ## Reading -/

/-- The number that a numeral denotes, rounded.  A numeral whose first significant digit stands far
outside the range of the format is decided by that place alone, so that no power of ten of that
size is ever computed. -/
def ofNumeral (n : Numeral) : Binary64 :=
  let significant := n.digits.dropWhile (· == '0')
  let first := n.lastPlace + significant.length - 1
  if significant = [] ∨ first < -330 then zero n.negative
  else if 310 < first then .infinite n.negative
  else round n.negative n.magnitude

/-- The number that a text without blanks at its ends denotes. -/
def ofTrimmed? (text : List Char) : Option Binary64 :=
  let (negative, word) := splitSign text
  let word := String.ofList (word.map Char.toLower)
  if word = "inf" ∨ word = "infinity" then some (.infinite negative)
  else if word = "nan" then some .nan
  else (Numeral.ofText? text).map ofNumeral

/-- The number that a text denotes.  Blanks at the ends of the text do not matter. -/
def ofText? (text : List Char) : Option Binary64 :=
  ofTrimmed? (Text.trim text)

/-! ## Writing -/

/-- Digits whose first stands for `10 ^ first`, written with a point where one is needed. -/
def positional (digits : List Char) (first : Int) : List Char :=
  match first with
  | .ofNat e =>
    let whole := digits.take (e + 1) ++ List.replicate (e + 1 - digits.length) '0'
    match digits.drop (e + 1) with
    | [] => whole
    | fraction => whole ++ '.' :: fraction
  | .negSucc e => '0' :: '.' :: List.replicate e '0' ++ digits

/-- Digits whose first stands for `10 ^ first`, written as one digit before the point and the
exponent. -/
def exponential (digits : List Char) (first : Int) : List Char :=
  let mantissa :=
    match digits with
    | leading :: more :: rest => leading :: '.' :: more :: rest
    | digits => digits
  let exponent := Nat.toDigits 10 first.natAbs
  mantissa ++ 'e' :: (if first < 0 then '-' else '+') ::
    List.replicate (2 - exponent.length) '0' ++ exponent

/-- The text of a magnitude that is not zero. -/
def magnitudeText (rank : Nat) : List Char :=
  let d := Decimal.shortest rank
  if -4 ≤ d.firstPlace ∧ d.firstPlace < 6 then positional d.digits d.firstPlace
  else exponential d.digits d.firstPlace

/-- The text of a number.  The sign of a zero is kept. -/
def text : Binary64 → List Char
  | .nan => "NaN".toList
  | .infinite false => "+Inf".toList
  | .infinite true => "-Inf".toList
  | .finite negative rank =>
    let unsigned := if rank.val = 0 then ['0'] else magnitudeText rank
    if negative then '-' :: unsigned else unsigned

end LispShell.Binary64
